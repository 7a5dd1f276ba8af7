import Barline.Proofs.Json.Parser
import Barline.Proofs.Json.Reader
import Barline.Proofs.Sequence.Normalized
import Barline.Sequence.Document

/-!
# Documents are read back as they were written

`Sequence.ofText?_toText`: the text that is written for a document is read as the document
brought into range, whatever the document held, and a document that is in range comes back as
it was.

Each record is read field by field: its names are distinct, so a field is found where it was
written and nowhere else, and an optional one is left out and missed in the same way.  One
reader does disturb what it reads: the value of a controller is cut to seven bits at once
(`Event.Body.asRead`).  Bringing the document into range does the same, so that nothing of it
is seen in the end (`Sequence.normalized_asRead`).
-/

namespace Barline

open Json Binary64

/-! ## Bytes -/

@[simp]
theorem saturatedByte?_ofNat (n : UInt8) : saturatedByte? (.ofNat n.toNat) = some n := by
  have hlt := n.toNat_lt
  have hread : int64? (.ofNat n.toNat) = some (Int64.ofInt n.toNat) := by
    rw [int64?, ← ofInt_natCast, integerIn?_ofInt (by omega) (by omega)]
    rfl
  have hinside : (Int64.ofInt n.toNat).toInt = n.toNat :=
    Int64.toInt_ofInt_of_le (by omega) (by omega)
  have hbyte : (max 0 (min (n.toNat : Int) 255)).toNat = n.toNat := by omega
  rw [saturatedByte?, hread, Option.map_some, hinside, hbyte]
  exact congrArg some UInt8.ofNat_toNat

/-- The value of a controller is written as a whole number and so is never taken for a share
of the full range, but it is cut to what a controller takes. -/
@[simp]
theorem controllerValue?_ofNat (n : UInt8) :
    controllerValue? (.ofNat n.toNat) = some (if n ≤ 127 then n else 127) := by
  have hlt := n.toNat_lt
  have hcut : (max 0 (min ((n.toNat : Nat) : Int) 127)).toNat.toUInt8 =
      if n ≤ 127 then n else 127 := by
    have h127 : (127 : UInt8).toNat = 127 := rfl
    split
    · next h =>
      rw [UInt8.le_iff_toNat_le, h127] at h
      rw [show (max 0 (min ((n.toNat : Nat) : Int) 127)).toNat = n.toNat by omega]
      exact UInt8.ofNat_toNat
    · next h =>
      rw [UInt8.le_iff_toNat_le, h127] at h
      rw [show (max 0 (min ((n.toNat : Nat) : Int) 127)).toNat = 127 by omega]
      rfl
  have hread : ∃ x, float? (.ofNat n.toNat) = some x ∧ ¬ (0.0 < x ∧ x < 1.0) ∧
      nearestOfFloat x = n.toNat := by
    by_cases hzero : n.toNat = 0
    · rw [hzero]
      refine ⟨0.0, Decimal.scaled?_decimal_zero false, ?_, nearestOfFloat_zero⟩
      exact fun h => absurd h.1 (by decide)
    · have hfits : Fits n.toNat 0 := ⟨by omega, by omega, by omega, by omega⟩
      refine ⟨dyadic n.toNat 0, Decimal.scaled?_decimal_of_lt hfits.pos hfits.lt false, ?_, ?_⟩
      · exact fun h => Decimal.not_dyadic_lt_one hfits.pos hfits.lt h.2
      · rw [nearest_dyadic hfits, roundHalfUp]
        simp only [Int.toNat_zero, Int.neg_zero, Nat.pow_zero, Nat.mul_one]
        omega
  obtain ⟨x, hx, hshare, hnearest⟩ := hread
  rw [controllerValue?, hx, Option.map_some]
  simp only [if_neg hshare, hnearest, hcut]

/-! ## Members that may be left out -/

section

variable {α : Type} {f : α → Json} {read : Json → Option α} {members : List (String × Json)}
  {name other : String}

/-- A member that is left out is read as nothing, and one that is there as what it was. -/
theorem omissible?_optionalMember (hread : ∀ x, nullable? read (f x) = some (some x))
    (hmembers : fieldOf members name = .unnamed) (o : Option α) :
    (fieldOf (optionalMember name f o ++ members) name).omissible? read = some o := by
  cases o with
  | none => rw [optionalMember, List.nil_append, hmembers]; rfl
  | some x => rw [optionalMember, List.cons_append, fieldOf_cons_self]; exact hread x

theorem fieldOf_optionalMember_of_ne (h : other ≠ name) (o : Option α) :
    fieldOf (optionalMember other f o ++ members) name = fieldOf members name := by
  cases o with
  | none => rfl
  | some x => exact fieldOf_cons_of_ne members (f x) h

theorem scalar_optionalMember (hf : ∀ x, Scalar (f x)) (o : Option α) :
    ∀ m ∈ optionalMember name f o, Scalar m.2 := by
  cases o with
  | none => exact fun m hm => by cases hm
  | some x =>
    intro m hm
    rw [List.mem_singleton.1 hm]
    exact hf x

end

/-! ## Events -/

namespace Event

/-- What reading makes of what was written: only the value of a controller is cut to its
range at once. -/
def Body.asRead : Body → Body
  | .control channel controller value =>
    .control channel controller (if value ≤ 127 then value else 127)
  | b => b

/-- No name occurs twice in an event. -/
theorem nodup_members (b : Body) : ("type" :: "tick" :: b.members.map Prod.fst).Nodup := by
  cases b with
  | note n => cases h : n.name <;> simp [Body.members, optionalMember, h]
  | key k name => cases name <;> simp [Body.members, optionalMember]
  | _ => simp [Body.members]

theorem ofRecord?_members (tick : Tick) (b : Body) :
    ofRecord? b.kindName (.record (("tick", .ofNat tick.toNat) :: b.members)) =
      some ⟨tick, b.asRead⟩ := by
  have hnodup : ((("tick", Json.ofNat tick.toNat) :: b.members).map Prod.fst).Nodup :=
    (List.nodup_cons.1 (nodup_members b)).2
  have hname : ∀ (name : String) (o : Option String),
      (fieldOf (optionalMember name Json.text o) name).omissible? string? = some o := by
    intro name o
    have ho : (fieldOf (optionalMember name Json.text o ++ []) name).omissible? string? = some o :=
      omissible?_optionalMember (fun s => rfl) (fieldOf_nil name) o
    rwa [List.append_nil] at ho
  cases b
  all_goals
    rw [Body.kindName, ofRecord?, fields?_record hnodup]
    simp [Body.members, hname, Body.asRead]

/-- An event is read back as it was written, but for the value of a controller. -/
theorem ofJson?_toJson (e : Event) : Event.ofJson? e.toJson = some ⟨e.tick, e.body.asRead⟩ := by
  have hdistinct := List.nodup_cons.1 (nodup_members e.body)
  rw [Event.ofJson?, toJson, tagged?_record hdistinct.1]
  exact ofRecord?_members e.tick e.body

theorem scalar_members (b : Body) : ∀ m ∈ b.members, Scalar m.2 := by
  cases b with
  | note n =>
    refine List.forall_mem_append.2 ⟨?_, scalar_optionalMember .text n.name⟩
    simp
  | key k name =>
    refine List.forall_mem_append.2 ⟨?_, scalar_optionalMember .text name⟩
    simp
  | _ => simp [Body.members]

/-- The members of an event are numbers and texts. -/
theorem scalar_toJson (e : Event) :
    ∀ m ∈ ("type", Json.text e.body.kindName) :: ("tick", .ofNat e.tick.toNat) :: e.body.members,
      Scalar m.2 := by
  rw [List.forall_mem_cons, List.forall_mem_cons]
  exact ⟨.text _, scalar_uint64 _, scalar_members e.body⟩

theorem kept?_toJson (e : Event) :
    kept? 4 Event.ofJson? e.toJson = some ⟨e.tick, e.body.asRead⟩ := by
  have hsound : isSound (122 + 1) e.toJson = true :=
    isSound_record fun m hm => (scalar_toJson e m hm).isSound 122
  rw [kept?, nestingLimit, if_pos hsound, ofJson?_toJson]

theorem writable_toJson (e : Event) : Writable e.toJson :=
  writable_record fun m hm => (scalar_toJson e m hm).writable

end Event

/-! ## Documents -/

/-- What reading makes of a track that was written. -/
def Track.asRead (t : Track) : Track :=
  { t with events := t.events.map fun e => ⟨e.tick, e.body.asRead⟩ }

/-- What reading makes of a document that was written. -/
def Sequence.asRead (s : Sequence) : Sequence := { s with tracks := s.tracks.map Track.asRead }

namespace Track

/-- The members of a track. -/
def members (t : Track) : List (String × Json) :=
  optionalMember "name" Json.text t.name ++
    (optionalMember "channel" (fun c : UInt8 => Json.ofNat c.toNat) t.channel ++
      [("events", Json.array (t.events.map Event.toJson))])

theorem toJson_eq (t : Track) : t.toJson = .record t.members := by
  rw [toJson, List.append_assoc, members]

theorem nodup_members (t : Track) : (t.members.map Prod.fst).Nodup := by
  obtain ⟨name, channel, events⟩ := t
  cases name <;> cases channel <;> simp [members, optionalMember]

/-- A track is read back as it was written, but for the values of controllers. -/
theorem ofJson?_toJson (t : Track) : Track.ofJson? t.toJson = some t.asRead := by
  have hname : (fieldOf t.members "name").omissible? string? = some t.name := by
    refine omissible?_optionalMember (fun s => rfl) ?_ t.name
    rw [fieldOf_optionalMember_of_ne (by decide), fieldOf_cons_of_ne _ _ (by decide), fieldOf_nil]
  have hchannel : (fieldOf t.members "channel").omissible? saturatedByte? = some t.channel := by
    rw [members, fieldOf_optionalMember_of_ne (by decide)]
    refine omissible?_optionalMember (fun c => ?_) ?_ t.channel
    · exact congrArg (Option.map some) (saturatedByte?_ofNat c)
    · rw [fieldOf_cons_of_ne _ _ (by decide), fieldOf_nil]
  have hevents : (fieldOf t.members "events").orElse? [] (list? (kept? 4 Event.ofJson?)) =
      some (t.events.map fun e => ⟨e.tick, e.body.asRead⟩) := by
    rw [members, fieldOf_optionalMember_of_ne (by decide),
      fieldOf_optionalMember_of_ne (by decide), fieldOf_cons_self, orElse?_given]
    exact list?_map _ _ fun e _ => e.kept?_toJson
  rw [toJson_eq, Track.ofJson?, fields?_record t.nodup_members]
  show ((fieldOf t.members "name").omissible? string?).bind _ = _
  rw [hname]
  show ((fieldOf t.members "channel").omissible? saturatedByte?).bind _ = _
  rw [hchannel]
  show ((fieldOf t.members "events").orElse? [] (list? (kept? 4 Event.ofJson?))).bind _ = _
  rw [hevents]
  rfl

theorem writable_toJson (t : Track) : Writable t.toJson := by
  rw [toJson_eq]
  refine writable_record ?_
  rw [members, List.forall_mem_append, List.forall_mem_append]
  refine ⟨?_, ?_, ?_⟩
  · exact fun m hm => (scalar_optionalMember .text t.name m hm).writable
  · exact fun m hm => (scalar_optionalMember scalar_uint8 t.channel m hm).writable
  · rw [List.forall_mem_singleton]
    refine .array fun v hv => ?_
    obtain ⟨e, -, rfl⟩ := List.mem_map.1 hv
    exact e.writable_toJson

end Track

namespace Sequence

/-- A document is read back as it was written, but for the values of controllers. -/
theorem ofJson?_toJson (s : Sequence) : Sequence.ofJson? s.toJson = some s.asRead := by
  have htracks : list? Track.ofJson? (.array (s.tracks.map Track.toJson)) =
      some (s.tracks.map Track.asRead) := list?_map _ _ fun t _ => t.ofJson?_toJson
  rw [toJson, Sequence.ofJson?, fields?_record (by simp)]
  simp [htracks, asRead]

theorem writable_toJson (s : Sequence) : Writable s.toJson := by
  refine writable_record ?_
  rw [List.forall_mem_cons, List.forall_mem_cons, List.forall_mem_singleton]
  refine ⟨(scalar_uint16 _).writable, (scalar_uint16 _).writable, .array fun v hv => ?_⟩
  obtain ⟨t, -, rfl⟩ := List.mem_map.1 hv
  exact t.writable_toJson

/-- What was written is read as the document, but for the values of controllers. -/
theorem ofRawText?_toText (s : Sequence) : Sequence.ofRawText? s.toText = some s.asRead := by
  rw [ofRawText?, toText, String.toList_ofList, parse?_pretty s.writable_toJson]
  exact s.ofJson?_toJson

end Sequence

/-! ## Normal documents -/

/-- Bringing an event into range cuts the value of a controller as reading does. -/
theorem Event.Body.normalize_asRead (tick : Tick) (b : Event.Body) :
    (b.asRead.normalize tick).value = (b.normalize tick).value := by
  cases b with
  | control channel controller value =>
    have hcut : (Repair.cutByte 127 "controller value" tick
        (if value ≤ 127 then value else 127)).value =
          (Repair.cutByte 127 "controller value" tick value).value := by
      rw [Repair.value_cutByte, Repair.value_cutByte]
      split
      · rfl
      · exact if_pos (UInt8.le_refl 127)
    show Event.Body.control _ _ _ = Event.Body.control _ _ _
    rw [hcut]
  | _ => rfl

theorem Track.normalize_asRead (t : Track) : t.asRead.normalize.value = t.normalize.value := by
  have hevent : ∀ e : Event, (Event.normalize ⟨e.tick, e.body.asRead⟩).value = e.normalize.value :=
    fun e => congrArg (Event.mk e.tick) (e.body.normalize_asRead e.tick)
  rw [t.asRead.value_normalize, t.value_normalize, asRead, List.map_map]
  congr 1
  exact List.map_congr_left fun e _ => hevent e

theorem Sequence.normalized_asRead (s : Sequence) : s.asRead.normalized = s.normalized := by
  have htracks : s.asRead.normalized.tracks = s.normalized.tracks := by
    rw [s.asRead.tracks_normalized, s.tracks_normalized, asRead, List.map_map]
    exact List.map_congr_left fun t _ => t.normalize_asRead
  show Sequence.mk _ _ s.asRead.normalized.tracks = _
  rw [htracks]
  rfl

/-- A document that was written and read again is the document brought into range, whatever
it held; and one that is in range is read back unchanged. -/
theorem Sequence.ofText?_toText (s : Sequence) :
    Sequence.ofText? s.toText = some s.normalized ∧
      Sequence.ofText? s.normalized.toText = some s.normalized := by
  have hread : ∀ s : Sequence, Sequence.ofText? s.toText = some s.normalized := by
    intro s
    rw [ofText?, s.ofRawText?_toText, Option.map_some, s.normalized_asRead]
  refine ⟨hread s, ?_⟩
  rw [hread, s.normalized_normalized]

end Barline
