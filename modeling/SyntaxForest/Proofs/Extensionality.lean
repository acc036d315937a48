import SyntaxForest.Proofs.Intact

/-!
# Forests that show the same

A forest is seen through its headers, and through the contents and the records of its nodes.  Where
every place in a pool belongs to a node, nothing else is there to be told apart: forests that show
the same are the same (`Forest.Intact.eq_of_views`).
-/

namespace SyntaxForest

/-- Pools that hold the same at every place are the same. -/
theorem Pools.eq_of_get? {p q : Pools} (h : ∀ k i, p.get? k i = q.get? k i) : p = q := by
  have pool {α : Type} {make : α → Contents} (inj : Function.Injective make) {as bs : Array α}
      (same : ∀ i : Nat, as[i]?.map make = bs[i]?.map make) : as = bs :=
    Array.ext_getElem? fun i => Option.map_injective inj (same i)
  cases p
  cases q
  rw [mk.injEq]
  exact ⟨pool (fun _ _ => Contents.name.inj) (h .name),
    pool (fun _ _ => Contents.numberLiteral.inj) (h .numberLiteral),
    pool (fun _ _ => Contents.stringLiteral.inj) (h .stringLiteral),
    pool (fun _ _ => Contents.keywordLiteral.inj) (h .keywordLiteral),
    pool (fun _ _ => Contents.arrayLiteral.inj) (h .arrayLiteral),
    pool (fun _ _ => Contents.objectLiteral.inj) (h .objectLiteral),
    pool (fun _ _ => Contents.objectProperty.inj) (h .objectProperty),
    pool (fun _ _ => Contents.block.inj) (h .block),
    pool (fun _ _ => Contents.expressionStatement.inj) (h .expressionStatement),
    pool (fun _ _ => Contents.ifStatement.inj) (h .ifStatement),
    pool (fun _ _ => Contents.tryStatement.inj) (h .tryStatement),
    pool (fun _ _ => Contents.catchClause.inj) (h .catchClause),
    pool (fun _ _ => Contents.forInLoop.inj) (h .forInLoop),
    pool (fun _ _ => Contents.doLoop.inj) (h .doLoop),
    pool (fun _ _ => Contents.whileLoop.inj) (h .whileLoop)⟩

namespace Forest

variable {f g : Forest}

/-- What a pool holds shows in every forest that shows the same. -/
theorem Intact.get?_eq_of_lt (hf : f.Intact) (headers : g.headers = f.headers)
    (contents : ∀ x, g.contents? x = f.contents? x) {k : Kind} {i : Nat}
    (hi : i < f.pools.size k) : g.pools.get? k i = f.pools.get? k i := by
  obtain ⟨x, h, hx, rfl, hentry⟩ := hf.owned hi
  have hx' : g.header? x = some h := by rw [← hx]; simp only [header?, headers]
  rw [← contents?_of_entry hx hentry, ← contents?_of_entry hx' hentry, contents]

/-- **Forests that show the same are the same.** -/
theorem Intact.eq_of_views (hf : f.Intact) (hg : g.Intact) (headers : g.headers = f.headers)
    (contents : ∀ x, g.contents? x = f.contents? x) (records : ∀ x, g.record? x = f.record? x) :
    g = f := by
  have pools : g.pools = f.pools := by
    refine Pools.eq_of_get? fun k i => ?_
    by_cases hi : i < f.pools.size k
    · exact hf.get?_eq_of_lt headers contents hi
    · by_cases hi' : i < g.pools.size k
      · exact (hg.get?_eq_of_lt headers.symm (fun x => (contents x).symm) hi').symm
      · rw [← Pools.isSome_get?_iff, Option.not_isSome_iff_eq_none] at hi hi'
        rw [hi, hi']
  have all : g.records = f.records := Array.ext_getElem? fun i => records (some i)
  cases f
  cases g
  rw [mk.injEq]
  exact ⟨headers, all, pools⟩

end Forest

end SyntaxForest
