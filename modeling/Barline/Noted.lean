/-!
# Values with notes

A computation that always has a value and says things on the way: what it had
to mend, or what it found wrong.  The notes of a sequence of computations are
the notes of each, one after the other, so none can hide another.
-/

namespace Barline

/-- A value, and what there is to say about it. -/
structure Noted (ν α : Type) where
  value : α
  notes : List ν
  deriving Repr

namespace Noted

variable {ν α β : Type}

instance : Monad (Noted ν) where
  pure a := ⟨a, []⟩
  bind x f := ⟨(f x.value).value, x.notes ++ (f x.value).notes⟩

/-- Says one thing. -/
def say (note : ν) : Noted ν Unit := ⟨(), [note]⟩

/-- A value with one note. -/
def withNote (a : α) (note : ν) : Noted ν α := ⟨a, [note]⟩

@[simp] theorem value_pure (a : α) : (pure a : Noted ν α).value = a := rfl

@[simp] theorem notes_pure (a : α) : (pure a : Noted ν α).notes = [] := rfl

@[simp] theorem value_bind (x : Noted ν α) (f : α → Noted ν β) :
    (x >>= f).value = (f x.value).value := rfl

@[simp] theorem notes_bind (x : Noted ν α) (f : α → Noted ν β) :
    (x >>= f).notes = x.notes ++ (f x.value).notes := rfl

/-- The values of a list, each computed on its own, with all their notes in order. -/
def forAll (f : α → Noted ν β) : List α → Noted ν (List β)
  | [] => ⟨[], []⟩
  | a :: rest =>
    ⟨(f a).value :: (forAll f rest).value, (f a).notes ++ (forAll f rest).notes⟩

theorem value_forAll (f : α → Noted ν β) (xs : List α) :
    (forAll f xs).value = xs.map fun a => (f a).value := by
  induction xs with
  | nil => rfl
  | cons a rest ih => simp [forAll, ih]

theorem notes_forAll (f : α → Noted ν β) (xs : List α) :
    (forAll f xs).notes = xs.flatMap fun a => (f a).notes := by
  induction xs with
  | nil => rfl
  | cons a rest ih => simp [forAll, ih]

end Noted

end Barline
