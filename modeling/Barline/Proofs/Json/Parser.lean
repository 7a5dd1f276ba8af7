import Barline.Proofs.Json.Printer

/-!
# The tokens of a value make up the value

The parser keeps the containers that are open in a list and takes one token after another.
Where a value is due, the tokens of a value lead to the state where it has ended, with the
containers as they were (`run?_tokens`); the tokens of what a container holds add it to the
container that was opened last.  With the cutting of texts this gives `parse?_pretty`: what is
printed is read back.
-/

namespace Barline.Json

theorem itemTokens_cons_cons (v w : Json) (items : List Json) :
    itemTokens (v :: w :: items) = tokens v ++ .comma :: itemTokens (w :: items) := rfl

theorem memberTokens_cons_cons (name : Option String) (v : Json) (m : Option String × Json)
    (members : List (Option String × Json)) :
    memberTokens ((name, v) :: m :: members) =
      .string name :: .colon :: tokens v ++ .comma :: memberTokens (m :: members) := rfl

theorem sizeOf_lt_array {v : Json} {items : List Json} (h : v ∈ items) :
    sizeOf v < sizeOf (Json.array items) := by
  have hlt := List.sizeOf_lt_of_mem h
  rw [Json.array.sizeOf_spec]
  omega

theorem sizeOf_lt_object {m : Option String × Json} {members : List (Option String × Json)}
    (h : m ∈ members) : sizeOf m.2 < sizeOf (Json.object members) := by
  have hlt := List.sizeOf_lt_of_mem h
  rw [Prod.mk.sizeOf_spec] at hlt
  rw [Json.object.sizeOf_spec]
  omega

/-- Where an array has just been opened a value starts as anywhere else: its first token is not
the end of the array. -/
theorem run?_arrayStart (v : Json) (frames : List Frame) (ts : List Token) :
    State.run? (.arrayStart frames) (tokens v ++ ts) =
      State.run? (.value (.array [] :: frames)) (tokens v ++ ts) := by
  cases v <;> rw [tokens] <;> rfl

/-- The tokens of a value lead to its end. -/
def Ends (v : Json) : Prop :=
  ∀ (frames : List Frame) (ts : List Token),
    State.run? (.value frames) (tokens v ++ ts) = State.run? (.after v frames) ts

/-- The tokens of values fill up an array that is open. -/
theorem run?_itemTokens {items : List Json} (h : ∀ v ∈ items, Ends v) (hne : items ≠ [])
    (held : List Json) (frames : List Frame) (ts : List Token) :
    State.run? (.value (.array held :: frames)) (itemTokens items ++ .closeArray :: ts) =
      State.run? (.after (.array (held.reverse ++ items)) frames) ts := by
  induction items generalizing held with
  | nil => exact absurd rfl hne
  | cons v items ih =>
    have hv := h v List.mem_cons_self
    cases items with
    | nil =>
      rw [itemTokens, hv]
      show State.run? (.after (.array (v :: held).reverse) frames) ts = _
      rw [List.reverse_cons]
    | cons w items =>
      have hitems := ih (fun w hw => h w (List.mem_cons_of_mem v hw)) (List.cons_ne_nil _ _)
        (v :: held)
      rw [itemTokens_cons_cons, List.append_assoc, hv]
      show State.run? (.value (.array (v :: held) :: frames))
        (itemTokens (w :: items) ++ .closeArray :: ts) = _
      rw [hitems, List.reverse_cons, List.append_assoc, List.singleton_append]

/-- The tokens of members fill up an object that is open, from the first name on. -/
theorem run?_memberTokens {members : List (Option String × Json)} (h : ∀ m ∈ members, Ends m.2)
    (hne : members ≠ []) (held : List (Option String × Json)) (frames : List Frame)
    (ts : List Token) :
    State.run? (.name held frames) (memberTokens members ++ .closeObject :: ts) =
      State.run? (.after (.object (held.reverse ++ members)) frames) ts := by
  induction members generalizing held with
  | nil => exact absurd rfl hne
  | cons m members ih =>
    obtain ⟨name, v⟩ := m
    have hv := h (name, v) List.mem_cons_self
    cases members with
    | nil =>
      rw [memberTokens]
      show State.run? (.value (.object held name :: frames)) (tokens v ++ .closeObject :: ts) = _
      rw [hv]
      show State.run? (.after (.object ((name, v) :: held).reverse) frames) ts = _
      rw [List.reverse_cons]
    | cons m members =>
      have hmembers := ih (fun w hw => h w (List.mem_cons_of_mem _ hw)) (List.cons_ne_nil _ _)
        ((name, v) :: held)
      rw [memberTokens_cons_cons, List.append_assoc]
      show State.run? (.value (.object held name :: frames))
        (tokens v ++ .comma :: (memberTokens (m :: members) ++ .closeObject :: ts)) = _
      rw [hv]
      show State.run? (.name ((name, v) :: held) frames) _ = _
      rw [hmembers, List.reverse_cons, List.append_assoc, List.singleton_append]

theorem run?_tokens : ∀ v : Json, Ends v
  | .null => fun frames ts => by rw [tokens]; rfl
  | .bool b => fun frames ts => by rw [tokens]; rfl
  | .number n => fun frames ts => by rw [tokens]; rfl
  | .string s => fun frames ts => by rw [tokens]; rfl
  | .array [] => fun frames ts => by rw [tokens, itemTokens]; rfl
  | .array (v :: items) => fun frames ts => by
    have hall : ∀ w ∈ v :: items, Ends w := fun w hw => run?_tokens w
    have hitems := run?_itemTokens hall (List.cons_ne_nil _ _) [] frames ts
    have hstart : ∃ more, itemTokens (v :: items) = tokens v ++ more := by
      cases items with
      | nil => exact ⟨[], (List.append_nil _).symm⟩
      | cons w items => exact ⟨.comma :: itemTokens (w :: items), rfl⟩
    obtain ⟨more, hmore⟩ := hstart
    rw [tokens, List.append_assoc]
    show State.run? (.arrayStart frames) (itemTokens (v :: items) ++ .closeArray :: ts) = _
    rw [hmore, List.append_assoc, run?_arrayStart, ← List.append_assoc, ← hmore, hitems]
    rfl
  | .object [] => fun frames ts => by rw [tokens, memberTokens]; rfl
  | .object ((name, v) :: members) => fun frames ts => by
    have hall : ∀ m ∈ (name, v) :: members, Ends m.2 := fun m hm => run?_tokens m.2
    have hmembers := run?_memberTokens hall (List.cons_ne_nil _ _) [] frames ts
    -- After the opening an object takes a name as it does after a comma.
    have hstart : ∃ more, memberTokens ((name, v) :: members) = .string name :: more := by
      cases members with
      | nil => exact ⟨_, rfl⟩
      | cons m members => exact ⟨_, rfl⟩
    obtain ⟨more, hmore⟩ := hstart
    rw [tokens, List.append_assoc]
    show State.run? (.objectStart frames)
      (memberTokens ((name, v) :: members) ++ .closeObject :: ts) = _
    rw [hmore] at hmembers ⊢
    exact hmembers
termination_by v => sizeOf v
decreasing_by
  · exact sizeOf_lt_array hw
  · exact sizeOf_lt_object hm

/-- The tokens of a value give the value back. -/
theorem ofTokens?_tokens (v : Json) : ofTokens? (tokens v) = some v := by
  have hrun := run?_tokens v [] []
  rw [List.append_nil] at hrun
  rw [ofTokens?, hrun]
  rfl

/-- What is printed is read back. -/
theorem parse?_pretty {v : Json} (h : Writable v) : parse? (pretty v) = some v := by
  rw [parse?, tokens?_pretty h]
  exact ofTokens?_tokens v

end Barline.Json
