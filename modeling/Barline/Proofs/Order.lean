import Barline.Order
import Mathlib

/-!
# What stable sorting keeps

`sortOn` is a library merge sort, and what the other proofs need of it is not
how it merges.  This module says what its result is:

* it is in ascending order (`pairwise_sortOn`), and a list that is in order
  already stays as it is (`sortOn_of_pairwise`);
* the items of one key stand in it as they stood before (`filter_sortOn_of_flat`);
* nothing else has these two properties (`eq_sortOn`).

From the last one it follows that picking items, or making others from them,
may be done before sorting as well as after it (`filterMap_sortOn`,
`filter_sortOn`, `map_sortOn`).

In a list in the order of its keys the first item with a property is the one with the
least key (`find?_eq_some_iff_isLeast`).  Items of different keys can be sorted in one way only
(`sortOn_eq_of_perm`).

`IsLatest` says, of a list in any order, which item is the last one up to a bound: none
up to the bound has a greater key, and of those with the same key it stands last.  Sorting
stably and dropping what is beyond the bound leaves it at the end
(`getLast?_sortOn_filter_eq_some_iff`).
-/

namespace Barline

variable {α β κ : Type}

/-- Items of which nothing is made may be left out before. -/
theorem filterMap_filter_of_isSome {f : α → Option β} {p : α → Bool} {xs : List α}
    (h : ∀ a ∈ xs, (f a).isSome = true → p a = true) :
    (xs.filter p).filterMap f = xs.filterMap f := by
  induction xs with
  | nil => rfl
  | cons a xs ih =>
    rw [List.forall_mem_cons] at h
    by_cases hp : p a = true
    · rw [List.filter_cons_of_pos hp, List.filterMap_cons, List.filterMap_cons, ih h.2]
    · have hnone : f a = none := by
        rw [← Option.not_isSome_iff_eq_none]
        exact mt h.1 hp
      rw [List.filter_cons_of_neg hp, List.filterMap_cons_none hnone, ih h.2]

/-- What is made of items may be picked by them as well as by itself. -/
theorem filter_filterMap {f : α → Option β} {p : α → Bool} {q : β → Bool} {xs : List α}
    (h : ∀ a ∈ xs, ∀ b, f a = some b → q b = p a) :
    (xs.filterMap f).filter q = (xs.filter p).filterMap f := by
  induction xs with
  | nil => rfl
  | cons a xs ih =>
    rw [List.forall_mem_cons] at h
    cases hfa : f a with
    | none =>
      rw [List.filterMap_cons_none hfa, ih h.2]
      by_cases hp : p a = true
      · rw [List.filter_cons_of_pos hp, List.filterMap_cons_none hfa]
      · rw [List.filter_cons_of_neg hp]
    | some b =>
      have hb := h.1 b hfa
      rw [List.filterMap_cons_some hfa]
      by_cases hp : p a = true
      · rw [List.filter_cons_of_pos (hb.trans hp), List.filter_cons_of_pos hp,
          List.filterMap_cons_some hfa, ih h.2]
      · rw [List.filter_cons_of_neg (by rwa [hb]), List.filter_cons_of_neg hp, ih h.2]

/-- Of items in the order of their keys the first with a property has the least key. -/
theorem find?_eq_some_iff_isLeast [PartialOrder κ] {xs : List (κ × α)} {pick : κ × α → Bool}
    (hsorted : xs.Pairwise fun e e' => e.1 < e'.1) {i : κ} :
    (xs.find? pick).map Prod.fst = some i ↔
      IsLeast {i | ∃ a, (i, a) ∈ xs ∧ pick (i, a) = true} i := by
  induction xs with
  | nil => simp [IsLeast]
  | cons e xs ih =>
    rw [List.pairwise_cons] at hsorted
    by_cases he : pick e = true
    · rw [List.find?_cons_of_pos he, Option.map_some, Option.some.injEq]
      have hleast : IsLeast {i | ∃ a, (i, a) ∈ e :: xs ∧ pick (i, a) = true} e.1 := by
        refine ⟨⟨e.2, List.mem_cons_self, he⟩, fun i' hi' => ?_⟩
        obtain ⟨a, ha, -⟩ := hi'
        rcases List.mem_cons.1 ha with heq | ha
        · exact le_of_eq (congrArg Prod.fst heq.symm)
        · exact le_of_lt (hsorted.1 _ ha)
      exact ⟨fun h => h ▸ hleast, fun h => hleast.unique h⟩
    · have hset : {i | ∃ a, (i, a) ∈ e :: xs ∧ pick (i, a) = true} =
          {i | ∃ a, (i, a) ∈ xs ∧ pick (i, a) = true} := by
        ext i'
        refine exists_congr fun a => and_congr_left fun ha => ?_
        rw [List.mem_cons, or_iff_right]
        exact fun heq => he (heq ▸ ha)
      rw [List.find?_cons_of_neg he, ih hsorted.2, hset]

/-- Of items in the opposite order the first with a property has the greatest key. -/
theorem find?_eq_some_iff_isGreatest [PartialOrder κ] {xs : List (κ × α)} {pick : κ × α → Bool}
    (hsorted : xs.Pairwise fun e e' => e'.1 < e.1) {i : κ} :
    (xs.find? pick).map Prod.fst = some i ↔
      IsGreatest {i | ∃ a, (i, a) ∈ xs ∧ pick (i, a) = true} i :=
  @find?_eq_some_iff_isLeast α κᵒᵈ _ xs pick hsorted i

/-- A list is determined by the keys of its items and by the items of each key. -/
theorem eq_of_map_of_filter [DecidableEq κ] (key : α → κ) {xs ys : List α}
    (hkeys : xs.map key = ys.map key)
    (h : ∀ k, xs.filter (fun a => decide (key a = k)) = ys.filter fun a => decide (key a = k)) :
    xs = ys := by
  induction xs generalizing ys with
  | nil => exact (List.map_eq_nil_iff.1 hkeys.symm).symm
  | cons x xs ih =>
    cases ys with
    | nil => cases hkeys
    | cons y ys =>
      obtain ⟨hkey, hrest⟩ := List.cons.inj hkeys
      have hhead := h (key y)
      simp only [List.filter_cons, hkey, decide_true, if_true, List.cons.injEq] at hhead
      obtain ⟨rfl, -⟩ := hhead
      rw [ih hrest fun k => ?_]
      have hk := h k
      rw [List.filter_cons, List.filter_cons] at hk
      split at hk
      · exact (List.cons.inj hk).2
      · exact hk

/-- Two lists have the same items when they have the same items of each key. -/
theorem perm_of_filter [DecidableEq κ] [DecidableEq α] (key : α → κ) {xs ys : List α}
    (h : ∀ k, (xs.filter fun a => decide (key a = k)).Perm
      (ys.filter fun a => decide (key a = k))) : xs.Perm ys := by
  rw [List.perm_iff_count]
  intro a
  have hcount : ∀ zs : List α, (zs.filter fun b => decide (key b = key a)).count a = zs.count a :=
    fun zs => List.count_filter (decide_eq_true rfl)
  rw [← hcount xs, ← hcount ys]
  exact (h (key a)).count_eq a

theorem exists_mem_of_forall₂ {P : α → β → Prop} {xs : List α} {ys : List β}
    (h : List.Forall₂ P xs ys) {x : α} (hx : x ∈ xs) : ∃ y ∈ ys, P x y := by
  induction h with
  | nil => exact absurd hx List.not_mem_nil
  | cons hxy _ ih =>
    rcases List.mem_cons.1 hx with rfl | hx
    · exact ⟨_, List.mem_cons_self, hxy⟩
    · obtain ⟨y, hy, hxy⟩ := ih hx
      exact ⟨y, List.mem_cons_of_mem _ hy, hxy⟩

/-- What holds of the items of a list in their order holds of what they are paired with. -/
theorem pairwise_of_forall₂ {P : α → β → Prop} {S : α → α → Prop} {T : β → β → Prop}
    (hstep : ∀ a a' b b', S a a' → P a b → P a' b' → T b b') {xs : List α} {ys : List β}
    (h : List.Forall₂ P xs ys) (hxs : xs.Pairwise S) : ys.Pairwise T := by
  induction h with
  | nil => exact List.Pairwise.nil
  | cons hab hrest ih =>
    rw [List.pairwise_cons] at hxs ⊢
    refine ⟨fun b' hb' => ?_, ih hxs.2⟩
    obtain ⟨a', ha', hab'⟩ := exists_mem_of_forall₂ hrest.flip hb'
    exact hstep _ _ _ _ (hxs.1 a' ha') hab hab'

/-! ## Order -/

theorem sortOn_of_pairwise [LE κ] [DecidableLE κ] {key : α → κ} {xs : List α}
    (h : xs.Pairwise fun a b => key a ≤ key b) : sortOn key xs = xs :=
  List.mergeSort_of_pairwise (h.imp fun hab => by simpa using hab)

variable [LE κ] [DecidableLE κ] [Std.IsLinearOrder κ]

theorem pairwise_sortOn (key : α → κ) (xs : List α) :
    (sortOn key xs).Pairwise fun a b => key a ≤ key b := by
  have htrans : ∀ a b c : α, decide (key a ≤ key b) → decide (key b ≤ key c) →
      decide (key a ≤ key c) := by
    intro a b c hab hbc
    simp only [decide_eq_true_eq] at hab hbc ⊢
    exact Std.IsPreorder.le_trans _ _ _ hab hbc
  have htotal : ∀ a b : α, decide (key a ≤ key b) || decide (key b ≤ key a) := by
    intro a b
    simp only [Bool.or_eq_true, decide_eq_true_eq]
    exact Std.Total.total _ _
  exact (List.pairwise_mergeSort htrans htotal xs).imp fun hab => by simpa using hab

/-- Sorting keeps the order of items that are in order already. -/
theorem sublist_sortOn {key : α → κ} {xs ys : List α}
    (hys : ys.Pairwise fun a b => key a ≤ key b) (hsub : ys.Sublist xs) :
    ys.Sublist (sortOn key xs) := by
  refine List.sublist_mergeSort ?_ ?_ (hys.imp fun hab => by simpa using hab) hsub
  · intro a b c hab hbc
    simp only [decide_eq_true_eq] at hab hbc ⊢
    exact Std.IsPreorder.le_trans _ _ _ hab hbc
  · intro a b
    simp only [Bool.or_eq_true, decide_eq_true_eq]
    exact Std.Total.total _ _

/-- Items that are in order among themselves stand in the sorted list as they
stood before. -/
theorem filter_sortOn_of_flat {key : α → κ} {xs : List α} {p : α → Bool}
    (h : (xs.filter p).Pairwise fun a b => key a ≤ key b) :
    (sortOn key xs).filter p = xs.filter p := by
  have hsub : (xs.filter p).Sublist ((sortOn key xs).filter p) := by
    have := (sublist_sortOn h List.filter_sublist).filter p
    rwa [List.filter_filter, funext fun a => Bool.and_self (p a)] at this
  have hlen : (xs.filter p).length = ((sortOn key xs).filter p).length :=
    ((sortOn_perm key xs).filter p).length_eq.symm
  exact (hsub.eq_of_length hlen).symm

/-- The items of one key keep their order. -/
theorem filter_key_sortOn [DecidableEq κ] (key : α → κ) (xs : List α) (k : κ) :
    (sortOn key xs).filter (fun a => decide (key a = k)) =
      xs.filter fun a => decide (key a = k) := by
  apply filter_sortOn_of_flat
  apply List.pairwise_of_forall_mem_list
  intro a ha b hb
  simp only [List.mem_filter, decide_eq_true_eq] at ha hb
  rw [ha.2, hb.2]
  exact Std.IsPreorder.le_refl k

/-- What holds of the items of one key, each against those after it, still holds of them. -/
theorem pairwise_sortOn_tie [DecidableEq κ] {key : α → κ} {xs : List α} {R : α → α → Prop}
    (h : xs.Pairwise fun a b => key a = key b → R a b) :
    (sortOn key xs).Pairwise fun a b => key a = key b → R a b := by
  rw [List.pairwise_iff_forall_sublist] at h ⊢
  intro a b hab hkey
  refine h ?_ hkey
  have hsame := hab.filter fun c => decide (key c = key a)
  rw [filter_key_sortOn, List.filter_eq_self.2 (by simp [hkey])] at hsame
  exact hsame.trans List.filter_sublist

/-! ## Sorted lists are determined by the items of each key -/

omit [DecidableLE κ] in
/-- Two lists in ascending order are the same when they have the same items of
each key in the same order. -/
theorem eq_of_pairwise_of_filter [DecidableEq κ] {key : α → κ} {xs ys : List α}
    (hxs : xs.Pairwise fun a b => key a ≤ key b) (hys : ys.Pairwise fun a b => key a ≤ key b)
    (h : ∀ k, xs.filter (fun a => decide (key a = k)) = ys.filter fun a => decide (key a = k)) :
    xs = ys := by
  induction xs generalizing ys with
  | nil =>
    cases ys with
    | nil => rfl
    | cons y ys => simpa using h (key y)
  | cons x xs ih =>
    cases ys with
    | nil => simpa using h (key x)
    | cons y ys =>
      have hx : x ∈ y :: ys := by
        have : x ∈ (x :: xs).filter fun a => decide (key a = key x) := by simp
        rw [h] at this
        exact (List.mem_filter.1 this).1
      have hy : y ∈ x :: xs := by
        have : y ∈ (y :: ys).filter fun a => decide (key a = key y) := by simp
        rw [← h] at this
        exact (List.mem_filter.1 this).1
      rw [List.pairwise_cons] at hxs hys
      -- Each of the two heads occurs in the other list, so neither is above the other.
      have hyx : key y ≤ key x := by
        rcases List.mem_cons.1 hx with rfl | hx
        · exact Std.IsPreorder.le_refl _
        · exact hys.1 x hx
      have hxy : key x ≤ key y := by
        rcases List.mem_cons.1 hy with rfl | hy
        · exact Std.IsPreorder.le_refl _
        · exact hxs.1 y hy
      have hkey : key x = key y := Std.Antisymm.antisymm _ _ hxy hyx
      have hhead : x = y := by
        have := h (key x)
        simp only [List.filter_cons, hkey, decide_true, if_true, List.cons.injEq] at this
        exact this.1
      subst hhead
      rw [ih hxs.2 hys.2 fun k => ?_]
      have := h k
      by_cases hk : key x = k
      · simpa [List.filter_cons, hk] using this
      · simpa [List.filter_cons, hk] using this

/-- The sorted list is the only one in ascending order that keeps the items of each
key as they are. -/
theorem eq_sortOn [DecidableEq κ] {key : α → κ} {xs ys : List α}
    (hys : ys.Pairwise fun a b => key a ≤ key b)
    (h : ∀ k, ys.filter (fun a => decide (key a = k)) = xs.filter fun a => decide (key a = k)) :
    ys = sortOn key xs := by
  apply eq_of_pairwise_of_filter hys (pairwise_sortOn key xs)
  intro k
  rw [h k, filter_key_sortOn]

/-- Sorting sees of the keys only how they compare. -/
theorem sortOn_congr {ι : Type} [LE ι] [DecidableLE ι] [Std.IsLinearOrder ι] [DecidableEq ι]
    {key : α → κ} {key' : α → ι} {xs : List α}
    (h : ∀ a ∈ xs, ∀ b ∈ xs, key a ≤ key b ↔ key' a ≤ key' b) :
    sortOn key xs = sortOn key' xs := by
  apply eq_sortOn
  · refine (pairwise_sortOn key xs).imp_of_mem fun ha hb hab => ?_
    exact (h _ (mem_sortOn.1 ha) _ (mem_sortOn.1 hb)).1 hab
  · intro k
    apply filter_sortOn_of_flat
    apply List.pairwise_of_forall_mem_list
    intro a ha b hb
    simp only [List.mem_filter, decide_eq_true_eq] at ha hb
    refine (h a ha.1 b hb.1).2 ?_
    rw [ha.2, hb.2]
    exact Std.IsPreorder.le_refl k

/-- An item that is not above the others and stands in front of them stays there. -/
theorem sortOn_cons [DecidableEq κ] {key : α → κ} {a : α} {xs : List α}
    (h : ∀ b ∈ xs, key a ≤ key b) : sortOn key (a :: xs) = a :: sortOn key xs := by
  symm
  apply eq_sortOn
  · exact List.pairwise_cons.2 ⟨fun b hb => h b (mem_sortOn.1 hb), pairwise_sortOn key xs⟩
  · intro k
    rw [List.filter_cons, List.filter_cons, filter_key_sortOn]

/-- Parts that are put together may be sorted before, each by itself. -/
theorem sortOn_flatMap_sortOn [DecidableEq κ] (key : β → κ) (f : α → List β) (xs : List α) :
    sortOn key (xs.flatMap fun a => sortOn key (f a)) = sortOn key (xs.flatMap f) := by
  apply eq_sortOn (pairwise_sortOn key _)
  intro k
  rw [filter_key_sortOn, List.filter_flatMap, List.filter_flatMap]
  simp only [filter_key_sortOn]

/-! ## Sorting before and after -/

/-- Whatever is made of the items, as long as it keeps their keys, may be made
before they are sorted as well as after. -/
theorem filterMap_sortOn [DecidableEq κ] {key : α → κ} {key' : β → κ} {f : α → Option β}
    {xs : List α} (h : ∀ a ∈ xs, ∀ b, f a = some b → key' b = key a) :
    (sortOn key xs).filterMap f = sortOn key' (xs.filterMap f) := by
  apply eq_sortOn
  · rw [List.pairwise_filterMap]
    refine (pairwise_sortOn key xs).imp_of_mem ?_
    intro a a' ha ha' haa' b hb b' hb'
    rw [h a (mem_sortOn.1 ha) b hb, h a' (mem_sortOn.1 ha') b' hb']
    exact haa'
  · intro k
    have hkey : ∀ a ∈ xs, ∀ b, f a = some b → decide (key' b = k) = decide (key a = k) := by
      intro a ha b hb
      rw [h a ha b hb]
    rw [filter_filterMap hkey, filter_filterMap fun a ha => hkey a (mem_sortOn.1 ha),
      filter_key_sortOn]

/-- Items may be picked before sorting as well as after. -/
theorem filter_sortOn [DecidableEq κ] (key : α → κ) (p : α → Bool) (xs : List α) :
    (sortOn key xs).filter p = sortOn key (xs.filter p) := by
  rw [← List.filterMap_eq_filter]
  apply filterMap_sortOn
  intro a _ b hab
  rw [(Option.guard_eq_some_iff.1 hab).1]

/-- Items may be changed before sorting as well as after, if they keep their keys. -/
theorem map_sortOn [DecidableEq κ] {key : α → κ} {key' : β → κ} {f : α → β}
    (h : ∀ a, key' (f a) = key a) (xs : List α) :
    (sortOn key xs).map f = sortOn key' (xs.map f) := by
  rw [← List.filterMap_eq_map, filterMap_sortOn]
  intro a _ b hab
  rw [← h a, ← Option.some.inj hab]

/-- What is paired stays so when both lists are sorted, by keys that agree. -/
theorem forall₂_sortOn [DecidableEq κ] {key : α → κ} {key' : β → κ} {P : α → β → Prop}
    (hkey : ∀ a b, P a b → key a = key' b) {xs : List α} {ys : List β}
    (h : List.Forall₂ P xs ys) : List.Forall₂ P (sortOn key xs) (sortOn key' ys) := by
  -- Both are the two sides of the sorted pairs.
  obtain ⟨hlength, hpairs⟩ := List.forall₂_iff_zip.1 h
  have hxs : (sortOn (fun p => key p.1) (xs.zip ys)).map Prod.fst =
      sortOn key ((xs.zip ys).map Prod.fst) := map_sortOn (fun _ => rfl) _
  have hys : (sortOn (fun p => key' p.2) (xs.zip ys)).map Prod.snd =
      sortOn key' ((xs.zip ys).map Prod.snd) := map_sortOn (fun _ => rfl) _
  have hsame : sortOn (fun p => key p.1) (xs.zip ys) = sortOn (fun p => key' p.2) (xs.zip ys) := by
    refine sortOn_congr fun p hp q hq => ?_
    rw [hkey _ _ (hpairs hp), hkey _ _ (hpairs hq)]
  rw [List.map_fst_zip hlength.le] at hxs
  rw [List.map_snd_zip hlength.ge, ← hsame] at hys
  rw [← hxs, ← hys, List.forall₂_map_left_iff, List.forall₂_map_right_iff, List.forall₂_same]
  exact fun p hp => hpairs (mem_sortOn.1 hp)

/-! ## Items of different keys -/

/-- Items of different keys are sorted in one way, in whatever order they stood before. -/
theorem sortOn_eq_of_perm {key : α → κ} {xs ys : List α} (hperm : xs.Perm ys)
    (hdistinct : (xs.map key).Nodup) : sortOn key xs = sortOn key ys := by
  have hsame : (sortOn key xs).Perm (sortOn key ys) :=
    (sortOn_perm key xs).trans (hperm.trans (sortOn_perm key ys).symm)
  refine hsame.eq_of_pairwise (fun a b ha hb hab hba => ?_) (pairwise_sortOn key xs)
    (pairwise_sortOn key ys)
  have hbxs : b ∈ xs := hperm.mem_iff.2 (mem_sortOn.1 hb)
  exact List.inj_on_of_nodup_map hdistinct (mem_sortOn.1 ha) hbxs (Std.Antisymm.antisymm _ _ hab hba)

/-- Items of different keys are sorted strictly. -/
theorem pairwise_lt_sortOn [LT κ] [Std.LawfulOrderLT κ] {key : α → κ} {xs : List α}
    (hdistinct : (xs.map key).Nodup) : (sortOn key xs).Pairwise fun a b => key a < key b := by
  have hnodup : ((sortOn key xs).map key).Nodup :=
    ((sortOn_perm key xs).map key).nodup_iff.2 hdistinct
  have hne : (sortOn key xs).Pairwise fun a b => key a ≠ key b := List.pairwise_map.1 hnodup
  refine ((pairwise_sortOn key xs).and hne).imp fun {a b} hab => ?_
  exact Std.lt_of_le_of_ne hab.1 hab.2

/-! ## The last item up to a bound -/

section Latest

variable [LT κ]

/-- The last item up to a bound: of the items whose keys are not above the bound none has a
greater key, and none that stands after it has the same. -/
def IsLatest (key : α → κ) (xs : List α) (bound : κ) (a : α) : Prop :=
  key a ≤ bound ∧ ∃ before after, xs = before ++ a :: after ∧
    (∀ b ∈ before, key b ≤ bound → key b ≤ key a) ∧ ∀ b ∈ after, key b ≤ bound → key b < key a

variable [Std.LawfulOrderLT κ]

omit [DecidableLE κ] in
/-- One of the items has none above it and none as great after it. -/
theorem exists_last_greatest (key : α → κ) {xs : List α} (h : xs ≠ []) :
    ∃ before a after, xs = before ++ a :: after ∧ (∀ b ∈ before, key b ≤ key a) ∧
      ∀ b ∈ after, key b < key a := by
  induction xs with
  | nil => exact absurd rfl h
  | cons x xs ih =>
    by_cases hrest : xs = []
    · exact ⟨[], x, [], by rw [hrest]; rfl, by simp, by simp⟩
    · obtain ⟨before, a, after, rfl, hbefore, hafter⟩ := ih hrest
      by_cases hx : key x ≤ key a
      · refine ⟨x :: before, a, after, rfl, fun b hb => ?_, hafter⟩
        rcases List.mem_cons.1 hb with rfl | hb
        · exact hx
        · exact hbefore b hb
      · have hax : key a < key x := Std.not_le.1 hx
        refine ⟨[], x, before ++ a :: after, rfl, by simp, fun b hb => ?_⟩
        rcases List.mem_append.1 hb with hb | hb
        · exact Std.lt_of_le_of_lt (hbefore b hb) hax
        · rcases List.mem_cons.1 hb with rfl | hb
          · exact hax
          · exact Std.lt_trans (hafter b hb) hax

/-- The last item of the sorted list. -/
theorem getLast?_sortOn_eq_some_iff [DecidableEq κ] {key : α → κ} {xs : List α} {a : α} :
    (sortOn key xs).getLast? = some a ↔
      ∃ before after, xs = before ++ a :: after ∧ (∀ b ∈ before, key b ≤ key a) ∧
        ∀ b ∈ after, key b < key a := by
  have hlast : ∀ before a after, xs = before ++ a :: after → (∀ b ∈ before, key b ≤ key a) →
      (∀ b ∈ after, key b < key a) → (sortOn key xs).getLast? = some a := by
    rintro before a after rfl hbefore hafter
    have hle : ∀ b ∈ sortOn key (before ++ after), key b ≤ key a := by
      intro b hb
      rcases List.mem_append.1 (mem_sortOn.1 hb) with hb | hb
      · exact hbefore b hb
      · exact Std.le_of_lt (hafter b hb)
    have heq : sortOn key (before ++ after) ++ [a] = sortOn key (before ++ a :: after) := by
      apply eq_sortOn
      · rw [List.pairwise_append]
        exact ⟨pairwise_sortOn key _, List.pairwise_singleton _ _, by simpa using hle⟩
      · intro k
        simp only [List.filter_append, filter_key_sortOn, List.filter_cons, List.filter_nil]
        split
        · next hk =>
          have hnone : after.filter (fun b => decide (key b = k)) = [] := by
            rw [List.filter_eq_nil_iff]
            intro b hb hbk
            have hlt := hafter b hb
            rw [of_decide_eq_true hk, of_decide_eq_true hbk] at hlt
            exact Std.lt_irrefl hlt
          rw [hnone, List.append_nil]
        · rw [List.append_nil]
    rw [← heq, List.getLast?_append_cons, List.getLast?_singleton]
  refine ⟨fun h => ?_, fun ⟨before, after, hxs, hbefore, hafter⟩ =>
    hlast before a after hxs hbefore hafter⟩
  have hne : xs ≠ [] := by
    rintro rfl
    exact absurd h (by simp [sortOn])
  obtain ⟨before, a', after, hxs, hbefore, hafter⟩ := exists_last_greatest key hne
  have ha : a' = a := Option.some.inj ((hlast before a' after hxs hbefore hafter).symm.trans h)
  exact ⟨before, after, by rw [hxs, ha], ha ▸ hbefore, ha ▸ hafter⟩

/-- An item that comes behind the others is the last one of the sorted list, unless one of the
others is greater. -/
theorem getLast?_sortOn_concat [DecidableEq κ] [DecidableLT κ] {key : α → κ} (xs : List α) (x : α) :
    (sortOn key (xs ++ [x])).getLast? =
      match (sortOn key xs).getLast? with
      | some last => if key x < key last then some last else some x
      | none => some x := by
  cases hlast : (sortOn key xs).getLast? with
  | none =>
    have hnil := (sortOn_perm key xs).symm.trans (.of_eq (List.getLast?_eq_none_iff.1 hlast))
    rw [hnil.eq_nil, List.nil_append, sortOn_of_pairwise (List.pairwise_singleton _ x)]
    rfl
  | some last =>
    obtain ⟨before, after, rfl, hbefore, hafter⟩ := getLast?_sortOn_eq_some_iff.1 hlast
    dsimp only
    split
    · next hlt =>
      rw [getLast?_sortOn_eq_some_iff]
      refine ⟨before, after ++ [x], by simp, hbefore, fun b hb => ?_⟩
      rcases List.mem_append.1 hb with hb | hb
      · exact hafter b hb
      · rwa [List.mem_singleton.1 hb]
    · next hle =>
      have hle := Std.not_lt.1 hle
      rw [getLast?_sortOn_eq_some_iff]
      refine ⟨before ++ last :: after, [], rfl, fun b hb => ?_, nofun⟩
      rcases List.mem_append.1 hb with hb | hb
      · exact Std.le_trans (hbefore b hb) hle
      · rcases List.mem_cons.1 hb with rfl | hb
        · exact hle
        · exact Std.le_trans (Std.le_of_lt (hafter b hb)) hle

/-- Where items stand at ascending places the last one of the sorted list has the greatest key,
and of those with that key the greatest place. -/
theorem getLast?_sortOn_eq_some_iff_of_place [DecidableEq κ] {ι : Type} [LinearOrder ι]
    {key : α → κ} {place : α → ι} {xs : List α} (hplace : xs.Pairwise fun a b => place a < place b)
    {a : α} :
    (sortOn key xs).getLast? = some a ↔
      a ∈ xs ∧ ∀ b ∈ xs, key b < key a ∨ key b = key a ∧ place b ≤ place a := by
  rw [getLast?_sortOn_eq_some_iff]
  constructor
  · rintro ⟨before, after, rfl, hbefore, hafter⟩
    refine ⟨List.mem_append_right _ List.mem_cons_self, fun b hb => ?_⟩
    rcases List.mem_append.1 hb with hb | hb
    · have hlt := (List.pairwise_append.1 hplace).2.2 b hb a List.mem_cons_self
      by_cases heq : key b = key a
      · exact .inr ⟨heq, le_of_lt hlt⟩
      · exact .inl (Std.lt_of_le_of_ne (hbefore b hb) heq)
    · rcases List.mem_cons.1 hb with rfl | hb
      · exact .inr ⟨rfl, le_refl _⟩
      · exact .inl (hafter b hb)
  · rintro ⟨ha, hgreatest⟩
    obtain ⟨before, after, rfl⟩ := List.append_of_mem ha
    refine ⟨before, after, rfl, fun b hb => ?_, fun b hb => ?_⟩
    · rcases hgreatest b (List.mem_append_left _ hb) with hlt | ⟨heq, -⟩
      · exact Std.le_of_lt hlt
      · exact heq ▸ Std.le_refl _
    · have hlt := (List.pairwise_cons.1 (List.pairwise_append.1 hplace).2.1).1 b hb
      rcases hgreatest b (List.mem_append_right _ (List.mem_cons_of_mem _ hb)) with hkey | ⟨-, hle⟩
      · exact hkey
      · exact absurd hlt (not_lt_of_ge hle)

/-- In the sorted list the last item up to a bound is the one that is. -/
theorem getLast?_sortOn_filter_eq_some_iff [DecidableEq κ] {key : α → κ} {xs : List α}
    {bound : κ} {a : α} :
    ((sortOn key xs).filter fun b => decide (key b ≤ bound)).getLast? = some a ↔
      IsLatest key xs bound a := by
  rw [filter_sortOn, getLast?_sortOn_eq_some_iff]
  constructor
  · rintro ⟨before, after, hsplit, hbefore, hafter⟩
    obtain ⟨pre, rest, rfl, hpre, hrest⟩ := List.filter_eq_append_iff.1 hsplit
    obtain ⟨skipped, post, rfl, hskipped, ha, hpost⟩ := List.filter_eq_cons_iff.1 hrest
    refine ⟨of_decide_eq_true ha, pre ++ skipped, post, by rw [List.append_assoc], ?_, ?_⟩
    · intro b hb hle
      rcases List.mem_append.1 hb with hb | hb
      · exact hbefore b (hpre ▸ List.mem_filter.2 ⟨hb, decide_eq_true hle⟩)
      · exact absurd (decide_eq_true hle) (hskipped b hb)
    · intro b hb hle
      exact hafter b (hpost ▸ List.mem_filter.2 ⟨hb, decide_eq_true hle⟩)
  · rintro ⟨ha, before, after, rfl, hbefore, hafter⟩
    refine ⟨before.filter fun b => decide (key b ≤ bound),
      after.filter fun b => decide (key b ≤ bound), ?_, fun b hb => ?_, fun b hb => ?_⟩
    · rw [List.filter_append, List.filter_cons_of_pos (by simpa using ha)]
    · obtain ⟨hb, hle⟩ := List.mem_filter.1 hb
      exact hbefore b hb (of_decide_eq_true hle)
    · obtain ⟨hb, hle⟩ := List.mem_filter.1 hb
      exact hafter b hb (of_decide_eq_true hle)

/-- There is a last item up to a bound unless all are beyond it. -/
theorem getLast?_sortOn_filter_eq_none_iff {key : α → κ} {xs : List α} {bound : κ} :
    ((sortOn key xs).filter fun b => decide (key b ≤ bound)).getLast? = none ↔
      ∀ a ∈ xs, bound < key a := by
  rw [List.getLast?_eq_none_iff, List.filter_eq_nil_iff]
  simp [Std.not_le]

omit [DecidableLE κ] [Std.IsLinearOrder κ] [Std.LawfulOrderLT κ] in
theorem IsLatest.mem {key : α → κ} {xs : List α} {bound : κ} {a : α}
    (h : IsLatest key xs bound a) : a ∈ xs := by
  obtain ⟨-, before, after, rfl, -⟩ := h
  exact List.mem_append_right _ List.mem_cons_self

omit [DecidableLE κ] [Std.IsLinearOrder κ] [Std.LawfulOrderLT κ] in
/-- The last item is found again where the list is mapped. -/
theorem IsLatest.map {key : β → κ} {f : α → β} {xs : List α} {bound : κ} {a : α}
    (h : IsLatest (fun a => key (f a)) xs bound a) : IsLatest key (xs.map f) bound (f a) := by
  obtain ⟨ha, before, after, rfl, hbefore, hafter⟩ := h
  refine ⟨ha, before.map f, after.map f, by rw [List.map_append, List.map_cons], ?_, ?_⟩
  · exact List.forall_mem_map.2 hbefore
  · exact List.forall_mem_map.2 hafter

theorem IsLatest.unique [DecidableEq κ] {key : α → κ} {xs : List α} {bound : κ} {a b : α}
    (ha : IsLatest key xs bound a) (hb : IsLatest key xs bound b) : a = b := by
  rw [← getLast?_sortOn_filter_eq_some_iff] at ha hb
  exact Option.some.inj (ha.symm.trans hb)

/-- Where no key is less than a bound the last item up to it is the last one whose key it is. -/
theorem isLatest_of_getLast? [DecidableEq κ] {key : α → κ} {xs : List α} {bound : κ} {a : α}
    (hle : ∀ b ∈ xs, bound ≤ key b)
    (h : (xs.filter fun b => decide (key b = bound)).getLast? = some a) :
    IsLatest key xs bound a := by
  have hfilter : (sortOn key xs).filter (fun b => decide (key b ≤ bound)) =
      xs.filter fun b => decide (key b = bound) := by
    rw [← filter_key_sortOn]
    refine List.filter_congr fun b hb => decide_eq_decide.2 ?_
    exact ⟨fun h => Std.le_antisymm h (hle b (mem_sortOn.1 hb)), fun h => h ▸ Std.le_refl _⟩
  rw [← getLast?_sortOn_filter_eq_some_iff, hfilter, h]

omit [DecidableLE κ] in
/-- Only the order of the keys matters. -/
theorem IsLatest.congr {ι : Type} [LE ι] [Std.IsLinearOrder ι] [LT ι] [Std.LawfulOrderLT ι]
    {key : α → κ} {key' : α → ι} {xs : List α} {bound : κ} {bound' : ι} {a : α}
    (h : IsLatest key xs bound a) (hbound : ∀ b ∈ xs, key' b ≤ bound' ↔ key b ≤ bound)
    (hle : ∀ b ∈ xs, ∀ c ∈ xs, key' b ≤ key' c ↔ key b ≤ key c) :
    IsLatest key' xs bound' a := by
  obtain ⟨ha, before, after, rfl, hbefore, hafter⟩ := h
  have hmem : a ∈ before ++ a :: after := List.mem_append_right _ List.mem_cons_self
  refine ⟨(hbound a hmem).2 ha, before, after, rfl, fun b hb hb' => ?_, fun b hb hb' => ?_⟩
  · have hin : b ∈ before ++ a :: after := List.mem_append_left _ hb
    exact (hle b hin a hmem).2 (hbefore b hb ((hbound b hin).1 hb'))
  · have hin : b ∈ before ++ a :: after := List.mem_append_right _ (List.mem_cons_of_mem _ hb)
    have hlt := hafter b hb ((hbound b hin).1 hb')
    exact Std.not_le.1 fun hge => Std.not_le.2 hlt ((hle a hmem b hin).1 hge)

omit [DecidableLE κ] in
/-- The first of the least items may be given a key that is still less. -/
theorem IsLatest.of_earlier {key : α → κ} {before after : List α} {x x' a : α} {bound : κ}
    (h : IsLatest key (before ++ x :: after) bound a) (hx : key x ≤ bound) (hle : key x' ≤ key x)
    (hbefore : ∀ b ∈ before, key x < key b) (hafter : ∀ b ∈ after, key x ≤ key b) :
    IsLatest key (before ++ x' :: after) bound a ∨
      a = x ∧ IsLatest key (before ++ x' :: after) bound x' := by
  obtain ⟨ha, pre, post, hsplit, hpre, hpost⟩ := h
  have hself : pre = before → a :: post = x :: after →
      a = x ∧ IsLatest key (before ++ x' :: after) bound x' := by
    rintro rfl hcons
    obtain ⟨rfl, rfl⟩ := List.cons.inj hcons
    refine ⟨rfl, Std.le_trans hle hx, pre, post, rfl, fun b hb hb' => ?_, fun b hb hb' => ?_⟩
    · exact absurd (hbefore b hb) (Std.not_lt.2 (hpre b hb hb'))
    · exact absurd (hpost b hb hb') (Std.not_lt.2 (hafter b hb))
  -- The last item stands behind the one that is changed, is that one, or stands in front of it.
  rcases List.append_eq_append_iff.1 hsplit with ⟨mid, hpre', hmid⟩ | ⟨mid, rfl, hmid⟩
  · cases mid with
    | nil => exact .inr (hself (by simpa using hpre') hmid.symm)
    | cons y mid =>
      obtain ⟨rfl, rfl⟩ := List.cons.inj hmid
      rw [hpre'] at hpre
      refine .inl ⟨ha, before ++ x' :: mid, post, by simp, fun b hb hb' => ?_, hpost⟩
      rcases List.mem_append.1 hb with hb | hb
      · exact hpre b (List.mem_append_left _ hb) hb'
      · rcases List.mem_cons.1 hb with rfl | hb
        · exact Std.le_trans hle (hafter a (by simp))
        · exact hpre b (by simp [hb]) hb'
  · cases mid with
    | nil => exact .inr (hself (by simp) hmid)
    | cons y mid =>
      obtain ⟨rfl, rfl⟩ := List.cons.inj hmid
      refine .inl ⟨ha, pre, mid ++ x' :: after, by simp, hpre, fun b hb hb' => ?_⟩
      rcases List.mem_append.1 hb with hb | hb
      · exact hpost b (List.mem_append_left _ hb) hb'
      · rcases List.mem_cons.1 hb with rfl | hb
        · exact Std.lt_of_le_of_lt hle (hpost x (by simp) hx)
        · exact hpost b (by simp [hb]) hb'

end Latest

end Barline
