import SyntaxForest.Error

/-!
# Recipes

How the result for a node is put together from the results for its children.  A recipe asks for
one finished part after the other and ends with a result or an error.  It does not say where the
parts come from: they can lie on a desk, from which each is taken away (`Recipe.onDesk` in
`SyntaxForest.Assembly`), or be looked up (`Recipe.withParts`).
-/

namespace SyntaxForest

/-- A computation that asks for the finished parts of children, of type `α`, and ends with a `β`
or an error. -/
inductive Recipe (α β : Type) where
  | done (result : β)
  | fail (error : TreeError)
  | need (child : Link) (next : α → Recipe α β)

namespace Recipe

variable {α β γ : Type}

/-- Go on with the result of a recipe. -/
def bind (recipe : Recipe α β) (next : β → Recipe α γ) : Recipe α γ :=
  match recipe with
  | .done result => next result
  | .fail error => .fail error
  | .need child more => .need child fun part => (more part).bind next

instance : Monad (Recipe α) where
  pure := .done
  bind := bind

/-- The finished part of a child. -/
def take (child : Link) : Recipe α α := .need child .done

/-- The finished part of a child that a complete node has. -/
def takeRequired (kind : Kind) (slot : ChildSlot) (child : Link) : Recipe α α :=
  if child.isNone then .fail (.missingRequiredChild kind (.child slot)) else take child

/-- Refuse a node that lacks a child. -/
def require (kind : Kind) (slot : ChildSlot) (child : Link) : Recipe α Unit :=
  if child.isNone then .fail (.missingRequiredChild kind (.child slot)) else .done ()

/-- The finished parts of several children, in order. -/
def takeAll : List Link → Recipe α (List α)
  | [] => .done []
  | child :: rest => do
    let part ← take child
    let parts ← takeAll rest
    return part :: parts

/-- Follow a recipe with parts that can be looked up. -/
def withParts (look : Link → Except TreeError α) : Recipe α β → Except TreeError β
  | .done result => .ok result
  | .fail error => .error error
  | .need child next =>
    match look child with
    | .ok part => (next part).withParts look
    | .error error => .error error

section Following

variable (look : Link → Except TreeError α)

@[simp] theorem withParts_pure (result : β) :
    (pure result : Recipe α β).withParts look = .ok result := rfl

/-- To follow one recipe and then another is to follow both with the same parts. -/
theorem withParts_bind (recipe : Recipe α β) (next : β → Recipe α γ) :
    (recipe >>= next).withParts look =
      recipe.withParts look >>= fun result => (next result).withParts look := by
  induction recipe with
  | done | fail => rfl
  | need child more ih =>
    simp only [Bind.bind, bind, withParts]
    cases look child with
    | ok part => exact ih part
    | error => rfl

@[simp] theorem withParts_ite (p : Prop) [Decidable p] (first second : Recipe α β) :
    (if p then first else second).withParts look =
      if p then first.withParts look else second.withParts look :=
  apply_ite (withParts look) ..

@[simp] theorem withParts_take (child : Link) : (take child).withParts look = look child := by
  rw [take, withParts]
  cases look child <;> rfl

@[simp] theorem withParts_takeRequired (kind : Kind) (slot : ChildSlot) (child : Link) :
    (takeRequired kind slot child).withParts look =
      if child.isNone then .error (.missingRequiredChild kind (.child slot)) else look child := by
  rw [takeRequired, withParts_ite, withParts_take]
  rfl

@[simp] theorem withParts_require (kind : Kind) (slot : ChildSlot) (child : Link) :
    (require kind slot child).withParts look =
      if child.isNone then .error (.missingRequiredChild kind (.child slot)) else .ok () :=
  withParts_ite ..

/-- The parts of several children are looked up in their order. -/
@[simp] theorem withParts_takeAll (children : List Link) :
    (takeAll children).withParts look = children.mapM look := by
  induction children with
  | nil => rfl
  | cons child rest ih =>
    rw [takeAll, withParts_bind, withParts_take, List.mapM_cons]
    simp only [withParts_bind, ih]
    rfl

end Following

end Recipe

end SyntaxForest
