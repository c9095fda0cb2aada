/-! Steps that may fail, put together. The functions work in any monad: one that carries failures
stops at the first of them, and one that also keeps a record shows which steps were run. -/

namespace DeclFront.Fallible

variable {m : Type → Type} [Monad m] {α β γ : Type}

def both (p q : α → m Bool) (a : α) : m Bool := do
  if ← p a then q a else pure false

def either (p q : α → m Bool) (a : α) : m Bool := do
  if ← p a then pure true else q a

def negate (p : α → m Bool) (a : α) : m Bool := do
  return !(← p a)

def andThen (f : α → m β) (g : β → m γ) (a : α) : m γ := do
  g (← f a)

def mapping (f : α → m β) (g : β → γ) (a : α) : m γ := do
  return g (← f a)

def mapEach (f : α → m β) : List α → m (List β)
  | [] => pure []
  | a :: rest => do
    let b ← f a
    let more ← mapEach f rest
    return b :: more

def keepEach (p : α → m Bool) : List α → m (List α)
  | [] => pure []
  | a :: rest => do
    let keep ← p a
    let more ← keepEach p rest
    return if keep then a :: more else more

def feedEach (consume : α → m Unit) : List α → m Unit
  | [] => pure ()
  | a :: rest => do
    consume a
    feedEach consume rest

/-- Draws items until one passes the test; that one is kept too. At most so many are drawn, which
is no limit if the source fails or the test passes before. -/
def drainUntil (draw : m α) (stop : α → m Bool) : Nat → m (List α)
  | 0 => pure []
  | limit + 1 => do
    let a ← draw
    if ← stop a then return [a]
    let more ← drainUntil draw stop limit
    return a :: more

end DeclFront.Fallible
