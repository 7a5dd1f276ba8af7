import Barline.Proofs.Order
import Barline.Session.Voices

/-!
# Voices and what was sent

`Voices` is kept up to date message by message.  `Voices.after` is what it has become
after some messages, and this module says it in terms of the messages:

* the channels are those of the messages (`mem_touched_after`);
* a voice sounds if the last message for it is an onset (`mem_sounding_after`).

So what is sent in the end puts everything to rest that the messages left behind
(`Voices.putsToRest_releases`), and every onset is followed by a release of its voice
(`PutsToRest.noteOff_of_noteOn`).
-/

namespace Barline

/-- The voice that a message strikes or releases. -/
def Midi.Message.voice? : Midi.Message → Option Session.Voice
  | .noteOn channel pitch _ => some ⟨channel, pitch⟩
  | .noteOff channel pitch => some ⟨channel, pitch⟩
  | _ => none

namespace Session

open Midi (Message)

/-! ## What messages leave behind -/

/-- The messages for a voice. -/
def messagesFor (v : Voice) (messages : List Message) : List Message :=
  messages.filter fun m => decide (m.voice? = some v)

/-- Whether the last message for a voice is an onset. -/
def SoundsAfter (messages : List Message) (v : Voice) : Prop :=
  ∃ velocity, (messagesFor v messages).getLast? = some (.noteOn v.channel v.pitch velocity)

/-- The order of voices: first their channels, then their pitches. -/
def Voice.Before (v w : Voice) : Prop :=
  v.channel < w.channel ∨ v.channel = w.channel ∧ v.pitch < w.pitch

/-- Whether messages put to rest what others left behind: on each channel that was used,
in ascending order, held notes are let go and silenced, and then each voice that sounds
is released, in ascending order. -/
def PutsToRest (messages rest : List Message) : Prop :=
  ∃ (channels : List UInt8) (voices : List Voice),
    channels.Pairwise (· < ·) ∧ (∀ c, c ∈ channels ↔ ∃ m ∈ messages, m.channel = c) ∧
    voices.Pairwise Voice.Before ∧ (∀ v, v ∈ voices ↔ SoundsAfter messages v) ∧
    rest = channels.flatMap (fun c => [.controlChange c 64 0, .controlChange c 123 0]) ++
      voices.map fun v => .noteOff v.channel v.pitch

/-- A message for another voice leaves a voice as it is. -/
theorem soundsAfter_append_of_ne {messages : List Message} {m : Message} {v : Voice}
    (h : m.voice? ≠ some v) : SoundsAfter (messages ++ [m]) v ↔ SoundsAfter messages v := by
  have hfor : messagesFor v (messages ++ [m]) = messagesFor v messages := by
    rw [messagesFor, List.filter_append, List.filter_cons_of_neg (by simpa using h)]
    exact List.append_nil _
  rw [SoundsAfter, SoundsAfter, hfor]

/-- After a message for a voice it matters only whether that is an onset. -/
theorem soundsAfter_append_of_eq {messages : List Message} {m : Message} {v : Voice}
    (h : m.voice? = some v) :
    SoundsAfter (messages ++ [m]) v ↔ ∃ velocity, m = .noteOn v.channel v.pitch velocity := by
  have hfor : messagesFor v (messages ++ [m]) = messagesFor v messages ++ [m] := by
    rw [messagesFor, List.filter_append, List.filter_cons_of_pos (by simpa using h)]
    rfl
  simp only [SoundsAfter, hfor, List.getLast?_concat, Option.some.injEq]

/-! ## Keeping track -/

namespace Voices

/-- The voices after some messages. -/
def after (messages : List Message) : Voices := messages.foldl (fun v m => v.track m) .atRest

theorem after_append (messages : List Message) (m : Message) :
    after (messages ++ [m]) = (after messages).track m := by
  rw [after, List.foldl_append]
  rfl

theorem nodup_insert {α : Type} [DecidableEq α] {xs : List α} (h : xs.Nodup) (a : α) :
    (xs.insert a).Nodup := by
  by_cases ha : a ∈ xs
  · rwa [List.insert_of_mem ha]
  · rw [List.insert_of_not_mem ha]
    exact List.nodup_cons.2 ⟨ha, h⟩

theorem nodup_touched_after (messages : List Message) : (after messages).touched.Nodup := by
  induction messages using List.reverseRecOn with
  | nil => exact List.nodup_nil
  | append_singleton messages m ih =>
    rw [after_append]
    exact nodup_insert ih m.channel

theorem nodup_sounding_after (messages : List Message) : (after messages).sounding.Nodup := by
  induction messages using List.reverseRecOn with
  | nil => exact List.nodup_nil
  | append_singleton messages m ih =>
    rw [after_append]
    cases m with
    | noteOn channel pitch velocity => exact nodup_insert ih _
    | noteOff channel pitch => exact ih.erase _
    | _ => exact ih

/-- The channels are those of the messages. -/
theorem mem_touched_after (messages : List Message) (c : UInt8) :
    c ∈ (after messages).touched ↔ ∃ m ∈ messages, m.channel = c := by
  induction messages using List.reverseRecOn with
  | nil => simp [after, atRest]
  | append_singleton messages m ih =>
    rw [after_append]
    show c ∈ (after messages).touched.insert m.channel ↔ _
    rw [List.mem_insert_iff, ih]
    constructor
    · rintro (rfl | ⟨m', hm', hchannel⟩)
      · exact ⟨m, by simp, rfl⟩
      · exact ⟨m', List.mem_append_left _ hm', hchannel⟩
    · rintro ⟨m', hm', hchannel⟩
      rcases List.mem_append.1 hm' with hm' | hm'
      · exact Or.inr ⟨m', hm', hchannel⟩
      · rw [List.mem_singleton.1 hm'] at hchannel
        exact Or.inl hchannel.symm

/-- A voice sounds if the last message for it is an onset. -/
theorem mem_sounding_after (messages : List Message) (v : Voice) :
    v ∈ (after messages).sounding ↔ SoundsAfter messages v := by
  induction messages using List.reverseRecOn with
  | nil => simp [after, atRest, SoundsAfter, messagesFor]
  | append_singleton messages m ih =>
    rw [after_append]
    show v ∈ soundingAfter (after messages).sounding m ↔ _
    by_cases hvoice : m.voice? = some v
    · rw [soundsAfter_append_of_eq hvoice]
      cases m with
      | noteOn channel pitch velocity =>
        obtain rfl := Option.some.inj hvoice
        exact ⟨fun _ => ⟨velocity, rfl⟩, fun _ => List.mem_insert_self⟩
      | noteOff channel pitch =>
        obtain rfl := Option.some.inj hvoice
        rw [soundingAfter, (nodup_sounding_after messages).mem_erase_iff]
        refine ⟨fun h => absurd rfl h.1, ?_⟩
        rintro ⟨_, h⟩
        cases h
      | _ => exact absurd hvoice (by simp [Message.voice?])
    · rw [soundsAfter_append_of_ne hvoice, ← ih]
      cases m with
      | noteOn channel pitch velocity =>
        have hne : v ≠ ⟨channel, pitch⟩ := fun heq => hvoice (congrArg some heq.symm)
        rw [soundingAfter, List.mem_insert_iff]
        exact or_iff_right hne
      | noteOff channel pitch =>
        have hne : v ≠ ⟨channel, pitch⟩ := fun heq => hvoice (congrArg some heq.symm)
        rw [soundingAfter, (nodup_sounding_after messages).mem_erase_iff]
        exact and_iff_right hne
      | _ => exact Iff.rfl

end Voices

/-! ## Coming to rest -/

theorem Voice.before_of_rank_lt {v w : Voice} (h : v.rank < w.rank) : v.Before w := by
  have hv := v.pitch.toNat_lt
  have hw := w.pitch.toNat_lt
  unfold Voice.rank at h
  unfold Voice.Before
  rw [UInt8.lt_iff_toNat_lt, UInt8.lt_iff_toNat_lt, ← UInt8.toNat_inj]
  omega

theorem Voice.eq_of_rank_eq {v w : Voice} (h : v.rank = w.rank) : v = w := by
  have hv := v.pitch.toNat_lt
  have hw := w.pitch.toNat_lt
  obtain ⟨channel, pitch⟩ := v
  obtain ⟨channel', pitch'⟩ := w
  unfold Voice.rank at h
  dsimp only at h hv hw
  have hchannel : channel = channel' := UInt8.toNat_inj.1 (by omega)
  have hpitch : pitch = pitch' := UInt8.toNat_inj.1 (by omega)
  rw [hchannel, hpitch]

/-- What is sent in the end puts to rest what the messages left behind. -/
theorem Voices.putsToRest_releases (messages : List Message) :
    PutsToRest messages (Voices.after messages).releases := by
  refine ⟨sortOn UInt8.toNat (Voices.after messages).touched,
    sortOn Voice.rank (Voices.after messages).sounding, ?_, fun c => ?_, ?_, fun v => ?_, rfl⟩
  · have hdistinct := (Voices.nodup_touched_after messages).map fun _ _ => UInt8.toNat_inj.1
    exact (pairwise_lt_sortOn hdistinct).imp UInt8.lt_iff_toNat_lt.2
  · rw [mem_sortOn, Voices.mem_touched_after]
  · have hdistinct := (Voices.nodup_sounding_after messages).map fun _ _ => Voice.eq_of_rank_eq
    exact (pairwise_lt_sortOn hdistinct).imp Voice.before_of_rank_lt
  · rw [mem_sortOn, Voices.mem_sounding_after]

/-! ## How much there is to put to rest -/

namespace Voices

theorem length_releases (v : Voices) :
    v.releases.length = 2 * v.touched.length + v.sounding.length := by
  have hhush : (sortOn UInt8.toNat v.touched).map (fun c => (hush c).length) =
      List.replicate v.touched.length 2 := by
    rw [List.eq_replicate_iff, List.length_map, (sortOn_perm _ _).length_eq]
    refine ⟨rfl, fun n hn => ?_⟩
    obtain ⟨c, -, rfl⟩ := List.mem_map.1 hn
    rfl
  rw [releases, List.length_append, List.length_flatMap, hhush, List.sum_replicate,
    List.length_map, (sortOn_perm _ _).length_eq, smul_eq_mul, Nat.mul_comm]

theorem length_insert_le {α : Type} [DecidableEq α] (a : α) (xs : List α) :
    (xs.insert a).length ≤ xs.length + 1 := by
  rw [List.length_insert]
  split <;> omega

/-- A message touches one channel and strikes one voice at most. -/
theorem length_releases_track_le (m : Message) (v : Voices) :
    (v.track m).releases.length ≤ v.releases.length + 3 := by
  have htouched : (v.track m).touched.length ≤ v.touched.length + 1 := length_insert_le _ _
  have hsounding : (v.track m).sounding.length ≤ v.sounding.length + 1 := by
    show (soundingAfter v.sounding m).length ≤ _
    cases m with
    | noteOn channel pitch velocity => exact length_insert_le _ _
    | noteOff channel pitch => exact Nat.le_succ_of_le List.length_erase_le
    | _ => exact Nat.le_succ _
  rw [length_releases, length_releases]
  omega

theorem length_releases_after_le (messages : List Message) :
    (after messages).releases.length ≤ 3 * messages.length := by
  induction messages using List.reverseRecOn with
  | nil =>
    rw [length_releases]
    exact Nat.le_refl 0
  | append_singleton messages m ih =>
    have htrack := length_releases_track_le m (after messages)
    rw [after_append, List.length_append, List.length_singleton]
    omega

end Voices

/-- A message for a voice that does not release it is an onset of it. -/
theorem eq_noteOn_of_voice? {m : Message} {v : Voice} (h : m.voice? = some v)
    (hrelease : m ≠ .noteOff v.channel v.pitch) :
    ∃ velocity, m = .noteOn v.channel v.pitch velocity := by
  cases m with
  | noteOn channel pitch velocity =>
    obtain rfl := Option.some.inj h
    exact ⟨velocity, rfl⟩
  | noteOff channel pitch =>
    obtain rfl := Option.some.inj h
    exact absurd rfl hrelease
  | _ => exact absurd h (by simp [Message.voice?])

/-- A voice sounds that is struck and not released any more. -/
theorem soundsAfter_of_not_released {before later : List Message} {v : Voice} {velocity : UInt8}
    (h : .noteOff v.channel v.pitch ∉ later) :
    SoundsAfter (before ++ .noteOn v.channel v.pitch velocity :: later) v := by
  have hfor : messagesFor v (before ++ .noteOn v.channel v.pitch velocity :: later) =
      messagesFor v before ++ .noteOn v.channel v.pitch velocity :: messagesFor v later := by
    rw [messagesFor, List.filter_append, List.filter_cons_of_pos (by simp [Message.voice?])]
    rfl
  obtain ⟨last, hlast⟩ : ∃ last, (Message.noteOn v.channel v.pitch velocity ::
      messagesFor v later).getLast? = some last := ⟨_, List.getLast?_eq_some_getLast (by simp)⟩
  have hmem := List.mem_of_getLast? hlast
  rw [SoundsAfter, hfor, List.getLast?_append, hlast]
  rcases List.mem_cons.1 hmem with rfl | hmem
  · exact ⟨velocity, rfl⟩
  · obtain ⟨hlater, hvoice⟩ := List.mem_filter.1 hmem
    have hrelease : last ≠ .noteOff v.channel v.pitch := by
      rintro rfl
      exact h hlater
    obtain ⟨velocity', rfl⟩ := eq_noteOn_of_voice? (of_decide_eq_true hvoice) hrelease
    exact ⟨velocity', rfl⟩

/-- A voice that sounds was struck and is not released any more. -/
theorem exists_noteOn_of_soundsAfter {messages : List Message} {v : Voice}
    (h : SoundsAfter messages v) :
    ∃ before velocity later, messages = before ++ .noteOn v.channel v.pitch velocity :: later ∧
      .noteOff v.channel v.pitch ∉ later := by
  obtain ⟨velocity, hlast⟩ := h
  obtain ⟨init, hfor⟩ := List.getLast?_eq_some_iff.1 hlast
  obtain ⟨front, rest, rfl, -, hrest⟩ := List.filter_eq_append_iff.1 hfor
  obtain ⟨between, later, rfl, -, -, hlater⟩ := List.filter_eq_cons_iff.1 hrest
  refine ⟨front ++ between, velocity, later, (List.append_assoc _ _ _).symm, fun hmem => ?_⟩
  have hreleased := List.filter_eq_nil_iff.1 hlater _ hmem
  exact hreleased (decide_eq_true rfl)

/-- What puts voices to rest strikes none. -/
theorem PutsToRest.not_mem_noteOn {messages rest : List Message} (h : PutsToRest messages rest)
    (channel pitch velocity : UInt8) : .noteOn channel pitch velocity ∉ rest := by
  obtain ⟨channels, voices, -, -, -, -, rfl⟩ := h
  simp

/-- Every onset is followed by a release of its voice: among the messages themselves, or
among those that put them to rest. -/
theorem PutsToRest.noteOff_of_noteOn {messages rest : List Message} (h : PutsToRest messages rest)
    {before later : List Message} {channel pitch velocity : UInt8}
    (hsplit : messages ++ rest = before ++ .noteOn channel pitch velocity :: later) :
    .noteOff channel pitch ∈ later := by
  have hnone := h.not_mem_noteOn channel pitch velocity
  obtain ⟨channels, voices, -, -, -, hvoices, hrest⟩ := h
  rcases List.append_eq_append_iff.1 hsplit with ⟨more, -, heq⟩ | ⟨more, hmessages, heq⟩
  · rw [heq] at hnone
    exact absurd (List.mem_append_right more List.mem_cons_self) hnone
  · cases more with
    | nil =>
      rw [List.nil_append] at heq
      rw [← heq] at hnone
      exact absurd List.mem_cons_self hnone
    | cons m more =>
      obtain ⟨rfl, rfl⟩ := List.cons.inj heq
      by_cases hreleased : .noteOff channel pitch ∈ more
      · exact List.mem_append_left _ hreleased
      · have hsounds : SoundsAfter messages ⟨channel, pitch⟩ := by
          rw [hmessages]
          exact soundsAfter_of_not_released hreleased
        refine List.mem_append_right _ ?_
        rw [hrest]
        exact List.mem_append_right _ (List.mem_map_of_mem ((hvoices _).2 hsounds))

end Session

end Barline
