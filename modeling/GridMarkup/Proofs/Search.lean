import GridMarkup.Text.Search
import Mathlib.Data.List.Infix

/-!
# Searches that stop at a known place

A search runs through a text of which no place passes its test, and stops where a place does.
-/

namespace GridMarkup.Text

/-! ## Searching for a place -/

/-- No place in `s` passes the test, where `rest` stands behind `s`. -/
def Avoids (p : List Char → Bool) (s rest : List Char) : Prop :=
  ∀ v, v <:+ s → v ≠ [] → p (v ++ rest) = false

instance (p : List Char → Bool) (s rest : List Char) : Decidable (Avoids p s rest) :=
  decidable_of_iff (∀ v ∈ s.tails, v ≠ [] → p (v ++ rest) = false) (by simp [Avoids])

variable {p : List Char → Bool} {s rest mark before after : List Char}

theorem avoids_cons {c : Char} :
    Avoids p (c :: s) rest ↔ p (c :: s ++ rest) = false ∧ Avoids p s rest := by
  constructor
  · intro h
    exact ⟨h _ List.suffix_rfl (by simp), fun v hv => h v (hv.trans (List.suffix_cons c s))⟩
  · rintro ⟨hc, h⟩ v hv hne
    rcases List.suffix_cons_iff.1 hv with rfl | hv
    · exact hc
    · exact h v hv hne

theorem breakAt_here (h : s = [] ∨ p s = true) : breakAt p s = ([], s) := by
  cases s with
  | nil => rfl
  | cons c s =>
    have hp : p (c :: s) = true := h.resolve_left (by simp)
    rw [breakAt, if_pos hp]

theorem breakAt_of_avoids (h : Avoids p s rest) (hr : rest = [] ∨ p rest = true) :
    breakAt p (s ++ rest) = (s, rest) := by
  induction s with
  | nil => exact breakAt_here hr
  | cons c s ih =>
    obtain ⟨hc, hs⟩ := avoids_cons.1 h
    rw [List.cons_append, breakAt, if_neg (by simpa using hc), ih hs]

theorem avoids_breakAt (p : List Char → Bool) (s : List Char) :
    Avoids p (breakAt p s).1 (breakAt p s).2 := by
  induction s with
  | nil => intro v hv hne; exact absurd (List.suffix_nil.1 hv) hne
  | cons c s ih =>
    rw [breakAt]
    split
    · intro v hv hne; exact absurd (List.suffix_nil.1 hv) hne
    · next hc =>
      refine avoids_cons.2 ⟨?_, ih⟩
      rw [List.cons_append, breakAt_append]
      simpa using hc

/-! ## Searching for a mark -/

theorem strip?_append (mark rest : List Char) : strip? mark (mark ++ rest) = some rest :=
  strip?_eq_some_iff.2 rfl

theorem startsWith_iff : startsWith mark s = true ↔ mark <+: s := by
  unfold startsWith
  rw [Option.isSome_iff_exists]
  simp only [strip?_eq_some_iff]
  exact ⟨fun ⟨t, h⟩ => ⟨t, h.symm⟩, fun ⟨t, h⟩ => ⟨t, h.symm⟩⟩

/-- A mark does not reach beyond a character that it does not hold. -/
theorem prefix_append_cons_iff {c : Char} (hc : c ∉ mark) :
    mark <+: s ++ c :: rest ↔ mark <+: s := by
  induction mark generalizing s with
  | nil => simp
  | cons m mark ih =>
    rw [List.mem_cons, not_or] at hc
    cases s with
    | nil => simp [Ne.symm hc.1]
    | cons d s => rw [List.cons_append, List.cons_prefix_cons, List.cons_prefix_cons, ih hc.2]

theorem cut?_of_avoids (h : Avoids (startsWith mark) s (mark ++ rest)) :
    cut? mark (s ++ (mark ++ rest)) = some (s, rest) := by
  have hr : startsWith mark (mark ++ rest) = true := startsWith_iff.2 (List.prefix_append _ _)
  rw [cut?, breakAt_of_avoids h (.inr hr), strip?_append]
  rfl

theorem avoids_of_cut? (h : cut? mark s = some (before, after)) :
    Avoids (startsWith mark) before (mark ++ after) := by
  simp only [cut?, Option.map_eq_some_iff, Prod.mk.injEq] at h
  obtain ⟨_, hr, rfl, rfl⟩ := h
  rw [← strip?_eq_some_iff.1 hr]
  exact avoids_breakAt _ _

/-- A text before the mark does not hold the mark. -/
theorem not_infix_of_cut? (hm : mark ≠ []) (h : cut? mark s = some (before, after)) :
    ¬ mark <:+: before := by
  rintro ⟨x, y, hxy⟩
  have hv : mark ++ y <:+ before := ⟨x, by rw [← List.append_assoc, hxy]⟩
  have hfalse := avoids_of_cut? h _ hv (by simp [hm])
  have htrue : startsWith mark (mark ++ y ++ (mark ++ after)) = true :=
    startsWith_iff.2 (by rw [List.append_assoc]; exact List.prefix_append _ _)
  rw [htrue] at hfalse
  cases hfalse

/-- A mark that cannot be found is not there. -/
theorem not_infix_of_cut?_none (hm : mark ≠ []) (h : cut? mark s = none) : ¬ mark <:+: s := by
  have hnone : strip? mark (breakAt (startsWith mark) s).2 = none := Option.map_eq_none_iff.1 h
  have hnil : (breakAt (startsWith mark) s).2 = [] := by
    refine (breakAt_rest _ s).resolve_right ?_
    rw [startsWith, hnone]
    exact Bool.false_ne_true
  have havoids := avoids_breakAt (startsWith mark) s
  have hsource := breakAt_append (startsWith mark) s
  rw [hnil, List.append_nil] at hsource
  rw [hnil, hsource] at havoids
  intro hinside
  obtain ⟨v, hpre, hsuf⟩ := List.infix_iff_prefix_suffix.1 hinside
  have hne : v ≠ [] := by
    rintro rfl
    exact hm (List.prefix_nil.1 hpre)
  have hfalse := havoids v hsuf hne
  rw [List.append_nil, startsWith_iff.2 hpre] at hfalse
  cases hfalse

theorem cut?_singleton {c : Char} (h : c ∉ s) : cut? [c] (s ++ c :: rest) = some (s, rest) := by
  change cut? [c] (s ++ ([c] ++ rest)) = _
  apply cut?_of_avoids
  intro v hv hne
  rw [Bool.eq_false_iff, ne_eq, startsWith_iff]
  intro hp
  obtain ⟨d, v, rfl⟩ := List.exists_cons_of_ne_nil hne
  have hd : c = d := by simpa using hp
  exact h (hd ▸ hv.subset List.mem_cons_self)

theorem not_mem_of_cut? {c : Char} (h : cut? [c] s = some (before, after)) : c ∉ before := by
  intro hc
  obtain ⟨x, y, hxy⟩ := List.append_of_mem hc
  exact not_infix_of_cut? (by simp) h ⟨x, y, by simp [hxy]⟩

theorem not_mem_of_cut?_none {c : Char} (h : cut? [c] s = none) : c ∉ s := fun hc =>
  not_infix_of_cut?_none (by simp) h ((List.singleton_infix_iff c s).2 hc)

/-- Where two characters of a mark differ from its last one, only a whole mark can begin inside the
text in front of it. -/
theorem avoids_commentEnd (h : ¬ "-->".toList <:+: s) :
    Avoids (startsWith "-->".toList) s ("-->".toList ++ rest) := by
  intro v hv hne
  rw [Bool.eq_false_iff, ne_eq, startsWith_iff]
  intro hp
  match v, hne with
  | [a], _ => simp at hp
  | [a, b], _ => simp at hp
  | a :: b :: c :: v, _ =>
    obtain ⟨x, hx⟩ := hv
    have habc : a = '-' ∧ b = '-' ∧ c = '>' := by
      simp at hp
      exact ⟨hp.1.symm, hp.2.1.symm, hp.2.2.symm⟩
    obtain ⟨rfl, rfl, rfl⟩ := habc
    exact h ⟨x, v, by simpa using hx⟩

/-! ## Runs of a class of characters -/

theorem takeWhile_append_stop {q : Char → Bool} {c : Char} (hs : ∀ d ∈ s, q d = true)
    (hc : q c = false) : (s ++ c :: rest).takeWhile q = s := by
  rw [List.takeWhile_append_of_pos hs, List.takeWhile_cons_of_neg (by simp [hc]), List.append_nil]

theorem dropWhile_append_stop {q : Char → Bool} {c : Char} (hs : ∀ d ∈ s, q d = true)
    (hc : q c = false) : (s ++ c :: rest).dropWhile q = c :: rest := by
  rw [List.dropWhile_append_of_pos hs, List.dropWhile_cons_of_neg (by simp [hc])]

theorem isBlank_of_isAlphanum {c : Char} (hc : c.isAlphanum = true) : isBlank c = false := by
  have hrange : 48 ≤ c.toNat ∧ c.toNat ≤ 122 := by
    have hcases : (decide ('A'.val ≤ c.val ∧ c.val ≤ 'Z'.val) ||
        (decide ('a'.val ≤ c.val) && decide (c.val ≤ 'z'.val)) ||
        (decide ('0'.val ≤ c.val) && decide (c.val ≤ '9'.val))) = true := hc
    simp only [Bool.or_eq_true, Bool.and_eq_true, decide_eq_true_eq,
      UInt32.le_iff_toNat_le] at hcases
    rcases hcases with (⟨h1, h2⟩ | ⟨h1, h2⟩) | ⟨h1, h2⟩
    · simp at h1 h2; omega
    · simp at h1 h2; omega
    · simp at h1 h2; omega
  simp only [isBlank, blankRanges, List.any_cons, List.any_nil, Bool.or_false,
    Bool.or_eq_false_iff, Bool.and_eq_false_iff, decide_eq_false_iff_not]
  omega

theorem trimStart_blank {c : Char} (hc : isBlank c = true) (s : List Char) :
    trimStart (c :: s) = trimStart s := List.dropWhile_cons_of_pos hc

theorem trimStart_not_blank {c : Char} (hc : isBlank c = false) (s : List Char) :
    trimStart (c :: s) = c :: s := List.dropWhile_cons_of_neg (by simp [hc])

/-! ## Parts -/

theorem splitWhere_ne_nil (q : Char → Bool) (s : List Char) : splitWhere q s ≠ [] := by
  cases s with
  | nil => simp [splitWhere]
  | cons c s =>
    rw [splitWhere]
    split
    · simp
    · split <;> simp

/-- A part holds none of the characters that part it from others. -/
theorem not_of_mem_splitWhere {q : Char → Bool} {part : List Char} (h : part ∈ splitWhere q s) :
    ∀ c ∈ part, q c = false := by
  induction s generalizing part with
  | nil =>
    rw [splitWhere, List.mem_singleton] at h
    rw [h]
    exact List.forall_mem_nil _
  | cons c s ih =>
    rw [splitWhere] at h
    split at h
    · rcases List.mem_cons.1 h with rfl | h
      · exact List.forall_mem_nil _
      · exact ih h
    · next hc =>
      obtain ⟨first, later, hparts⟩ := List.exists_cons_of_ne_nil (splitWhere_ne_nil q s)
      rw [hparts] at h ih
      rcases List.mem_cons.1 h with rfl | h
      · exact List.forall_mem_cons.2 ⟨by simpa using hc, ih List.mem_cons_self⟩
      · exact ih (List.mem_cons_of_mem _ h)

theorem splitWhere_eq_splitOnP (p : Char → Bool) (s : List Char) :
    splitWhere p s = s.splitOnP p := by
  induction s with
  | nil => rfl
  | cons c s ih =>
    rw [splitWhere, List.splitOnP_cons_eq_if_modifyHead, ih]
    obtain ⟨first, later, hparts⟩ := List.exists_cons_of_ne_nil (List.splitOnP_ne_nil p s)
    rw [hparts]
    rfl

end GridMarkup.Text
