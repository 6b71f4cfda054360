import Mathlib.Data.Set.Card
import RenderLog.Registry.Numbering

/-!
# Laws of dense numberings

The numbers of a numbering without repetition are the positions of its live
keys. Resolving a key changes no other number. Releasing a key gives its number
to the key numbered last, which is lowered by that, and changes no other number.
-/
namespace RenderLog.Numbering

variable {κ : Type}

/-- No key has two numbers. -/
def Distinct (n : Numbering κ) : Prop := n.keys.Nodup

theorem distinct_empty : (empty : Numbering κ).Distinct := List.nodup_nil

/-- The numbering lists the key alone or nothing at all. -/
def Single (n : Numbering κ) (k : κ) : Prop := n = .empty ∨ n = ⟨[k]⟩

theorem Single.eq_of_mem {n : Numbering κ} {k j : κ} (h : n.Single k) (hj : j ∈ n.keys) :
    j = k := by
  rcases h with rfl | rfl
  · cases hj
  · exact List.mem_singleton.mp hj

/-- The freed place takes the last key; of the last place nothing is left. -/
theorem vacate_concat (front : List κ) (last : κ) (i : Nat) :
    (⟨front ++ [last]⟩ : Numbering κ).vacate i = ⟨front.set i last⟩ := by
  have hl : (front ++ [last]).getLast? = some last := List.getLast?_concat
  simp only [vacate, hl]
  by_cases hi : i < front.length
  · rw [List.set_append_left _ _ hi, List.dropLast_concat]
  · have hs : front.set i last = front := List.set_eq_of_length_le (by omega)
    rw [List.set_append_right _ _ (by omega), hs]
    cases i - front.length <;> simp

variable [DecidableEq κ] {n : Numbering κ} {k j : κ} {i : Nat}

theorem index?_eq_none_iff : n.index? k = none ↔ k ∉ n.keys := List.idxOf?_eq_none_iff

theorem exists_index? (h : k ∈ n.keys) : ∃ i, n.index? k = some i :=
  Option.isSome_iff_exists.mp (List.isSome_idxOf?.mpr h)

theorem getElem?_of_index? (h : n.index? k = some i) : n.keys[i]? = some k := by
  obtain ⟨hi, hk, _⟩ := List.idxOf?_eq_some_iff.mp h
  rw [List.getElem?_eq_getElem hi, hk]

theorem mem_of_index? (h : n.index? k = some i) : k ∈ n.keys :=
  List.mem_of_getElem? (getElem?_of_index? h)

theorem Distinct.index?_eq_some_iff (h : n.Distinct) :
    n.index? k = some i ↔ n.keys[i]? = some k := by
  constructor
  · exact getElem?_of_index?
  · intro hk
    obtain ⟨m, hm⟩ := exists_index? (List.mem_of_getElem? hk)
    have hlt := (List.getElem?_eq_some_iff.mp hk).choose
    have he : i = m := (List.getElem?_inj hlt h).mp (hk.trans (getElem?_of_index? hm).symm)
    rw [he, hm]

theorem index?_inj (hk : n.index? k = some i) (hj : n.index? j = some i) : k = j :=
  Option.some.inj ((getElem?_of_index? hk).symm.trans (getElem?_of_index? hj))

section Resolve

theorem resolve_of_index? (h : n.index? k = some i) : n.resolve k = (i, n) := by
  simp only [resolve, h]

theorem resolve_of_not_mem (h : k ∉ n.keys) : n.resolve k = (n.count, ⟨n.keys ++ [k]⟩) := by
  simp only [resolve, index?_eq_none_iff.mpr h]

/-- Live keys are given different numbers. -/
theorem resolve_eq_iff_of_mem (hk : k ∈ n.keys) (hj : j ∈ n.keys) :
    (n.resolve k).1 = (n.resolve j).1 ↔ k = j := by
  obtain ⟨i, hi⟩ := exists_index? hk
  obtain ⟨l, hl⟩ := exists_index? hj
  rw [resolve_of_index? hi, resolve_of_index? hl]
  constructor
  · intro he
    have hil : i = l := he
    subst hil
    exact index?_inj hi hl
  · intro he
    subst he
    exact Option.some.inj (hi.symm.trans hl)

theorem mem_resolve : j ∈ (n.resolve k).2.keys ↔ j ∈ n.keys ∨ j = k := by
  by_cases h : k ∈ n.keys
  · obtain ⟨i, hi⟩ := exists_index? h
    rw [resolve_of_index? hi]
    constructor
    · exact Or.inl
    · rintro (hj | rfl)
      · exact hj
      · exact h
  · rw [resolve_of_not_mem h]
    simp

theorem Distinct.resolve (h : n.Distinct) (k : κ) : (n.resolve k).2.Distinct := by
  by_cases hk : k ∈ n.keys
  · obtain ⟨i, hi⟩ := exists_index? hk
    rw [resolve_of_index? hi]
    exact h
  · rw [resolve_of_not_mem hk]
    exact List.nodup_append.mpr ⟨h, List.nodup_singleton k, by
      intro a ha b hb hab
      rw [List.mem_singleton.mp hb] at hab
      exact hk (hab ▸ ha)⟩

/-- The number given out is the number of the key from then on. -/
theorem index?_resolve_self : (n.resolve k).2.index? k = some (n.resolve k).1 := by
  by_cases h : k ∈ n.keys
  · obtain ⟨i, hi⟩ := exists_index? h
    rw [resolve_of_index? hi]
    exact hi
  · rw [resolve_of_not_mem h]
    refine List.idxOf?_eq_some_iff.mpr ⟨by simp [count], by simp [count], ?_⟩
    intro m hm hmk
    have hm' : m < n.keys.length := hm
    rw [List.getElem_append_left hm'] at hmk
    exact h (hmk ▸ List.getElem_mem hm')

theorem index?_resolve_of_index? (h : n.index? j = some i) :
    (n.resolve k).2.index? j = some i := by
  by_cases hk : k ∈ n.keys
  · obtain ⟨m, hm⟩ := exists_index? hk
    rw [resolve_of_index? hm]
    exact h
  · rw [resolve_of_not_mem hk]
    obtain ⟨hi, hj, hfirst⟩ := List.idxOf?_eq_some_iff.mp h
    refine List.idxOf?_eq_some_iff.mpr ⟨by simp; omega, ?_, ?_⟩
    · rw [List.getElem_append_left hi]
      exact hj
    · intro m hm
      rw [List.getElem_append_left (Nat.lt_trans hm hi)]
      exact hfirst m hm

theorem index?_resolve_of_ne (hne : j ≠ k) : (n.resolve k).2.index? j = n.index? j := by
  cases hj : n.index? j with
  | some i => exact index?_resolve_of_index? hj
  | none =>
      rw [index?_eq_none_iff, mem_resolve, not_or]
      exact ⟨index?_eq_none_iff.mp hj, hne⟩

end Resolve

section Release

theorem release_of_not_mem (h : k ∉ n.keys) : n.release k = n := by
  simp only [release, index?_eq_none_iff.mpr h]

theorem index?_of_split {a b : List κ} (hk : k ∉ a) (h : n.keys = a ++ k :: b) :
    n.index? k = some a.length := by
  refine List.idxOf?_eq_some_iff.mpr ⟨by simp [h], by simp [h], ?_⟩
  intro m hm hmk
  simp only [h, List.getElem_append_left hm] at hmk
  exact hk (hmk ▸ List.getElem_mem hm)

/-- Everything a release can do: nothing, drop the last key, or fill a place before it. -/
theorem release_cases (n : Numbering κ) (k : κ) :
    (k ∉ n.keys ∧ n.release k = n) ∨
    (∃ a, k ∉ a ∧ n.keys = a ++ [k] ∧ (n.release k).keys = a) ∨
    (∃ a b last, k ∉ a ∧ n.keys = a ++ k :: (b ++ [last]) ∧
      (n.release k).keys = a ++ last :: b) := by
  by_cases hk : k ∈ n.keys
  · obtain ⟨a, rest, hn, ha⟩ := List.eq_append_cons_of_mem hk
    have hv : n.release k = n.vacate a.length := by simp only [release, index?_of_split ha hn]
    obtain ⟨keys⟩ := n
    obtain rfl : keys = a ++ k :: rest := hn
    rcases List.eq_nil_or_concat' rest with rfl | ⟨b, last, rfl⟩
    · refine .inr (.inl ⟨a, ha, rfl, ?_⟩)
      rw [hv, vacate_concat, List.set_eq_of_length_le (Nat.le_refl _)]
    · refine .inr (.inr ⟨a, b, last, ha, rfl, ?_⟩)
      have hs : a ++ k :: (b ++ [last]) = (a ++ k :: b) ++ [last] := by simp
      rw [hv, hs, vacate_concat]
      simp
  · exact .inl ⟨hk, release_of_not_mem hk⟩

theorem mem_of_mem_release (h : j ∈ (n.release k).keys) : j ∈ n.keys := by
  rcases release_cases n k with ⟨-, hr⟩ | ⟨a, -, hn, hr⟩ | ⟨a, b, last, -, hn, hr⟩
  · rwa [hr] at h
  · rw [hr] at h
    rw [hn]
    exact List.mem_append_left _ h
  · rw [hr] at h
    rw [hn]
    simp only [List.mem_append, List.mem_cons] at h ⊢
    rcases h with h | rfl | h
    · exact .inl h
    · exact .inr (.inr (.inr (.inl rfl)))
    · exact .inr (.inr (.inl h))

theorem Distinct.mem_release (h : n.Distinct) :
    j ∈ (n.release k).keys ↔ j ∈ n.keys ∧ j ≠ k := by
  rcases release_cases n k with ⟨hk, hr⟩ | ⟨a, ha, hn, hr⟩ | ⟨a, b, last, ha, hn, hr⟩
  · rw [hr]
    exact ⟨fun hj => ⟨hj, fun he => hk (he ▸ hj)⟩, And.left⟩
  · rw [hn, hr, List.mem_append, List.mem_singleton]
    constructor
    · exact fun hj => ⟨.inl hj, fun he => ha (he ▸ hj)⟩
    · rintro ⟨hj | hj, hne⟩
      · exact hj
      · exact (hne hj).elim
  · have hd : (a ++ k :: (b ++ [last])).Nodup := hn ▸ h
    rw [hn, hr]
    simp only [List.nodup_append, List.nodup_cons, List.mem_append, List.mem_cons,
      List.not_mem_nil, or_false] at hd ⊢
    constructor
    · rintro (hj | rfl | hj)
      · exact ⟨.inl hj, fun he => ha (he ▸ hj)⟩
      · exact ⟨.inr (.inr (.inr rfl)), fun he => hd.2.1.1 (.inr he.symm)⟩
      · exact ⟨.inr (.inr (.inl hj)), fun he => hd.2.1.1 (.inl (he ▸ hj))⟩
    · rintro ⟨hj | hj | hj | hj, hne⟩
      · exact .inl hj
      · exact (hne hj).elim
      · exact .inr (.inr hj)
      · exact .inr (.inl hj)

theorem Distinct.release (h : n.Distinct) (k : κ) : (n.release k).Distinct := by
  unfold Distinct at h ⊢
  rcases release_cases n k with ⟨-, hr⟩ | ⟨a, -, hn, hr⟩ | ⟨a, b, last, -, hn, hr⟩
  · rw [hr]
    exact h
  · rw [hr]
    rw [hn] at h
    exact h.of_append_left
  · rw [hr]
    rw [hn] at h
    have hp : (a ++ last :: b).Perm (a ++ (b ++ [last])) :=
      List.Perm.append_left a (List.perm_append_singleton last b).symm
    have hs : (a ++ (b ++ [last])).Sublist (a ++ k :: (b ++ [last])) :=
      (List.sublist_cons_self k _).append_left a
    exact hp.nodup_iff.mpr (h.sublist hs)

theorem index?_lt_count (h : n.index? k = some i) : i < n.count :=
  (List.getElem?_eq_some_iff.mp (getElem?_of_index? h)).choose

/-- After a release the last place is gone and the freed one has the key of the last. -/
theorem getElem?_release (hk : n.index? k = some i) (p : Nat) :
    (n.release k).keys[p]? =
      if p < n.count - 1 then if i = p then n.keys[n.count - 1]? else n.keys[p]? else none := by
  have hi : i < n.keys.length := index?_lt_count hk
  have hlast : n.keys.length - 1 < n.keys.length := by omega
  have hl : n.keys.getLast? = some n.keys[n.keys.length - 1] := by
    rw [List.getLast?_eq_getElem?, List.getElem?_eq_getElem hlast]
  have hv : (n.release k).keys = (n.keys.set i n.keys[n.keys.length - 1]).dropLast := by
    simp only [release, hk, vacate, hl]
  rw [hv, List.getElem?_dropLast, List.length_set, List.getElem?_set, if_pos hi, count,
    List.getElem?_eq_getElem hlast]

theorem count_release (hk : n.index? k = some i) : (n.release k).count + 1 = n.count := by
  have hi := index?_lt_count hk
  rcases release_cases n k with ⟨hm, -⟩ | ⟨a, -, hn, hr⟩ | ⟨a, b, last, -, hn, hr⟩
  · rw [index?_eq_none_iff.mpr hm] at hk
    cases hk
  · simp [count, hn, hr]
  · simp only [count, hn, hr, List.length_append, List.length_cons, List.length_nil]
    omega

/-- A release gives the freed number to the key numbered last and changes no other number. -/
theorem Distinct.index?_release (h : n.Distinct) (hk : n.index? k = some i) (hne : j ≠ k) :
    (n.release k).index? j =
      if n.index? j = some (n.count - 1) then some i else n.index? j := by
  cases hj : n.index? j with
  | none =>
      rw [if_neg (by simp), index?_eq_none_iff]
      exact fun hm => index?_eq_none_iff.mp hj (mem_of_mem_release hm)
  | some p =>
      have hi := index?_lt_count hk
      have hp := index?_lt_count hj
      have hip : i ≠ p := by
        rintro rfl
        exact hne (index?_inj hj hk)
      by_cases hlast : p = n.count - 1
      · subst hlast
        rw [if_pos rfl, (h.release k).index?_eq_some_iff, getElem?_release hk, if_pos (by omega),
          if_pos rfl, getElem?_of_index? hj]
      · rw [if_neg (fun he => hlast (Option.some.inj he)), (h.release k).index?_eq_some_iff,
          getElem?_release hk, if_pos (by omega), if_neg hip, getElem?_of_index? hj]

/-- A release raises no number. -/
theorem Distinct.index?_release_le (h : n.Distinct) (hj : n.index? j = some i) (hne : j ≠ k) :
    ∃ m ≤ i, (n.release k).index? j = some m := by
  by_cases hk : k ∈ n.keys
  · obtain ⟨freed, hf⟩ := exists_index? hk
    have hlt := index?_lt_count hf
    rw [h.index?_release hf hne, hj]
    split
    · rename_i hlast
      have := Option.some.inj hlast
      exact ⟨freed, by omega, rfl⟩
    · exact ⟨i, Nat.le_refl i, rfl⟩
  · rw [release_of_not_mem hk]
    exact ⟨i, Nat.le_refl i, hj⟩

end Release

section Single

theorem index?_singleton (k : κ) : (⟨[k]⟩ : Numbering κ).index? k = some 0 := by
  simp [index?, List.idxOf?_cons]

theorem Single.resolve (h : n.Single k) : (n.resolve k).2 = ⟨[k]⟩ := by
  rcases h with rfl | rfl
  · rfl
  · rw [resolve_of_index? (index?_singleton k)]

theorem Single.release (h : n.Single k) : n.release k = .empty := by
  rcases h with rfl | rfl
  · rfl
  · simp only [Numbering.release, index?_singleton]
    rfl

end Single

section Numbers
variable {live : Set κ}

/-- The numbers below the count are those of the live keys, each of exactly one. -/
structure Numbers (n : Numbering κ) (live : Set κ) : Prop where
  nodup : n.keys.Nodup
  mem_keys : ∀ k, k ∈ n.keys ↔ k ∈ live
  bijOn : Set.BijOn n.index? live (some '' Set.Iio n.count)

theorem Distinct.numbers (h : n.Distinct) (hl : ∀ k, k ∈ n.keys ↔ k ∈ live) : n.Numbers live := by
  refine ⟨h, hl, ?_, ?_, ?_⟩
  · intro k hk
    obtain ⟨i, hi⟩ := exists_index? ((hl k).mpr hk)
    exact ⟨i, index?_lt_count hi, hi.symm⟩
  · intro k hk j _ he
    obtain ⟨i, hi⟩ := exists_index? ((hl k).mpr hk)
    exact index?_inj hi (he ▸ hi)
  · rintro _ ⟨i, hi, rfl⟩
    have hi' : i < n.keys.length := hi
    exact ⟨n.keys[i], (hl _).mp (List.getElem_mem hi'),
      h.index?_eq_some_iff.mpr (List.getElem?_eq_getElem hi')⟩

/-- Without repetition there are as many keys as the count says. -/
theorem Distinct.encard_keys (h : n.Distinct) : {k | k ∈ n.keys}.encard = n.count := by
  have hset : {k | k ∈ n.keys} = (n.keys.toFinset : Set κ) := (List.coe_toFinset n.keys).symm
  rw [hset, Set.encard_coe_eq_coe_finsetCard, List.toFinset_card_of_nodup h, count]

theorem Numbers.count_eq_ncard (h : n.Numbers live) : n.count = live.ncard := by
  have hdistinct : n.Distinct := h.nodup
  have hset : live = {k | k ∈ n.keys} := Set.ext fun k => (h.mem_keys k).symm
  rw [hset, Set.ncard, hdistinct.encard_keys, ENat.toNat_natCast]

end Numbers

end RenderLog.Numbering
