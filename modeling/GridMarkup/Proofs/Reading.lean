import GridMarkup.Proofs.Search
import GridMarkup.Scan

/-!
# Reading from a known place

Where a construct begins is told by the next three characters. A text that begins none is read up
to the construct behind it, and every construct is read from its own place on.
-/

namespace GridMarkup.Scan

open Text

variable {decode : Bool} {s v rest : List Char} {kind : Construct}

/-! ## Results -/

section Results

variable {α β ε : Type} {x : Except ε α} {b : β}

theorem bind_eq_ok_iff {f : α → Except ε β} : x.bind f = .ok b ↔ ∃ a, x = .ok a ∧ f a = .ok b := by
  cases x with
  | error fault => exact ⟨nofun, nofun⟩
  | ok a =>
    constructor
    · exact fun h => ⟨a, rfl, h⟩
    · rintro ⟨_, ⟨⟩, h⟩
      exact h

theorem map_eq_ok_iff {f : α → β} : x.map f = .ok b ↔ ∃ a, x = .ok a ∧ f a = b := by
  cases x with
  | error fault => exact ⟨nofun, nofun⟩
  | ok a =>
    constructor
    · exact fun h => ⟨a, rfl, Except.ok.inj h⟩
    · rintro ⟨_, ⟨⟩, h⟩
      exact congrArg Except.ok h

end Results

/-! ## Where a construct begins -/

theorem ne_of_isAlpha {c : Char} (hc : c.isAlpha = true) : c ≠ '!' ∧ c ≠ '/' := by
  constructor <;> rintro rfl <;> exact absurd hc (by decide)

theorem construct?_startTag {c : Char} (hc : c.isAlpha = true) (s : List Char) :
    construct? ('<' :: c :: s) = some .startTag := by
  obtain ⟨hbang, hslash⟩ := ne_of_isAlpha hc
  simp [construct?, hbang, hslash, hc]

theorem construct?_endTag {c : Char} (hc : c.isAlpha = true) (s : List Char) :
    construct? ('<' :: '/' :: c :: s) = some .endTag := by
  simp [construct?, hc]

theorem construct?_declaration (h : ¬ "--".toList <+: s) :
    construct? ('<' :: '!' :: s) = some .declaration := by
  unfold construct?
  split
  · next heq =>
    cases heq
    exact absurd (by simp) h
  · rfl
  · next heq => cases heq
  · next hbang _ heq =>
    cases heq
    exact absurd rfl hbang
  · next hbang _ _ =>
    exact absurd rfl (hbang s)

theorem isSome_construct?_iff : (construct? s).isSome = true ↔
    "<!".toList <+: s ∨ ∃ c, c.isAlpha = true ∧ (['<', c] <+: s ∨ ['<', '/', c] <+: s) := by
  constructor
  · intro h
    unfold construct? at h
    split at h
    · exact .inl (by simp)
    · exact .inl (by simp)
    · next c _ =>
      split at h
      · next hc => exact .inr ⟨c, hc, .inr (by simp)⟩
      · cases h
    · next c _ _ _ _ =>
      split at h
      · next hc => exact .inr ⟨c, hc, .inl (by simp)⟩
      · cases h
    · cases h
  · rintro (⟨t, rfl⟩ | ⟨c, hc, ⟨t, rfl⟩ | ⟨t, rfl⟩⟩)
    · by_cases h : "--".toList <+: t
      · obtain ⟨t, rfl⟩ := h
        rfl
      · exact Option.isSome_iff_exists.2 ⟨_, construct?_declaration h⟩
    · exact Option.isSome_iff_exists.2 ⟨_, construct?_startTag hc t⟩
    · exact Option.isSome_iff_exists.2 ⟨_, construct?_endTag hc t⟩

/-- The source behind a text: nothing, or something that begins with `<`. -/
def AtMarkup (rest : List Char) : Prop := rest = [] ∨ ∃ s, rest = '<' :: s

theorem atMarkup_of_construct? (h : construct? s = some kind) : AtMarkup s := by
  right
  rcases isSome_construct?_iff.1 (Option.isSome_iff_exists.2 ⟨_, h⟩) with
    ⟨t, rfl⟩ | ⟨c, -, ⟨t, rfl⟩ | ⟨t, rfl⟩⟩
  · exact ⟨_, rfl⟩
  · exact ⟨_, rfl⟩
  · exact ⟨_, rfl⟩

theorem eq_cons_of_construct? (h : construct? s = some kind) : ∃ t, s = '<' :: t := by
  refine (atMarkup_of_construct? h).resolve_left ?_
  rintro rfl
  cases h

/-- What stands behind a text does not make a construct begin inside it. -/
theorem isSome_construct?_append (hv : v ≠ []) (hrest : AtMarkup rest) :
    (construct? (v ++ rest)).isSome = (construct? v).isSome := by
  rcases hrest with rfl | ⟨t, rfl⟩
  · rw [List.append_nil]
  · obtain ⟨a, w, rfl⟩ := List.exists_cons_of_ne_nil hv
    have hmark {m : Char} {ms : List Char} (hms : '<' ∉ ms) :
        m :: ms <+: (a :: w) ++ '<' :: t ↔ m :: ms <+: a :: w := by
      rw [List.cons_append, List.cons_prefix_cons, List.cons_prefix_cons,
        prefix_append_cons_iff hms]
    have halpha {c : Char} (hc : c.isAlpha = true) : '<' ≠ c := by
      rintro rfl
      exact absurd hc (by decide)
    rw [Bool.eq_iff_iff, isSome_construct?_iff, isSome_construct?_iff]
    refine or_congr (hmark (by decide)) (exists_congr fun c => and_congr_right fun hc => ?_)
    exact or_congr (hmark (by simp [halpha hc])) (hmark (by simp [halpha hc]))

/-! ## Texts that begin no construct -/

/-- A text with no declaration, comment, start tag or end tag in it. -/
def Plain (s : List Char) : Prop :=
  ¬ "<!".toList <:+: s ∧
    ∀ c, c.isAlpha = true → ¬ ['<', c] <:+: s ∧ ¬ ['<', '/', c] <:+: s

theorem plain_iff : Plain s ↔ ∀ v, v <:+ s → (construct? v).isSome = false := by
  constructor
  · rintro ⟨hbang, htag⟩ v hv
    rw [Bool.eq_false_iff, ne_eq, isSome_construct?_iff]
    rintro (h | ⟨c, hc, h | h⟩)
    · exact hbang (h.isInfix.trans hv.isInfix)
    · exact (htag c hc).1 (h.isInfix.trans hv.isInfix)
    · exact (htag c hc).2 (h.isInfix.trans hv.isInfix)
  · intro h
    have hnot {mark : List Char}
        (hmark : ∀ v, mark <+: v → (construct? v).isSome = true) : ¬ mark <:+: s := by
      intro hinside
      obtain ⟨v, hpre, hsuf⟩ := List.infix_iff_prefix_suffix.1 hinside
      have hfalse := h v hsuf
      rw [hmark v hpre] at hfalse
      cases hfalse
    refine ⟨hnot fun v hv => isSome_construct?_iff.2 (.inl hv), fun c hc => ⟨?_, ?_⟩⟩
    · exact hnot fun v hv => isSome_construct?_iff.2 (.inr ⟨c, hc, .inl hv⟩)
    · exact hnot fun v hv => isSome_construct?_iff.2 (.inr ⟨c, hc, .inr hv⟩)

instance (s : List Char) : Decidable (Plain s) :=
  decidable_of_iff (∀ v ∈ s.tails, (construct? v).isSome = false) (by simp [plain_iff])

theorem plain_iff_avoids (hrest : AtMarkup rest) :
    Plain s ↔ Avoids (fun rest => (construct? rest).isSome) s rest := by
  rw [plain_iff]
  constructor
  · intro h v hv hne
    change (construct? (v ++ rest)).isSome = false
    rw [isSome_construct?_append hne hrest, h v hv]
  · intro h v hv
    by_cases hne : v = []
    · rw [hne]
      rfl
    · rw [← isSome_construct?_append hne hrest]
      exact h v hv hne

theorem plain_of_lt_not_mem (h : '<' ∉ s) : Plain s :=
  ⟨fun hs => h (hs.subset (by simp)),
    fun _ _ => ⟨fun hs => h (hs.subset (by simp)), fun hs => h (hs.subset (by simp))⟩⟩

/-! ## One piece at a time -/

/-- Where a construct begins: behind a text, or at the end of the source. -/
def AtConstruct (rest : List Char) : Prop := rest = [] ∨ (construct? rest).isSome = true

theorem AtConstruct.atMarkup (h : AtConstruct rest) : AtMarkup rest := by
  rcases h with rfl | h
  · exact .inl rfl
  · obtain ⟨kind, hkind⟩ := Option.isSome_iff_exists.1 h
    exact atMarkup_of_construct? hkind

theorem textRun_append (hs : Plain s) (hrest : AtConstruct rest) :
    textRun (s ++ rest) = (s, rest) :=
  breakAt_of_avoids ((plain_iff_avoids hrest.atMarkup).1 hs) hrest

theorem plain_textRun (s : List Char) : Plain (textRun s).1 := by
  have hrest : AtConstruct (textRun s).2 := breakAt_rest _ s
  exact (plain_iff_avoids hrest.atMarkup).2 (avoids_breakAt _ s)

/-- A text in which no construct begins runs to its end. -/
theorem textRun_of_none (h : construct? (textRun s).2 = none) : textRun s = (s, []) := by
  have hrest : AtConstruct (textRun s).2 := breakAt_rest _ s
  have hnil : (textRun s).2 = [] := by
    refine hrest.resolve_right ?_
    rw [h]
    exact Bool.false_ne_true
  have hall : (textRun s).1 ++ (textRun s).2 = s := breakAt_append _ s
  rw [hnil, List.append_nil] at hall
  exact Prod.ext hall hnil

theorem scan_nil (decode : Bool) : scan decode [] = .ok [] := by
  rw [scan]
  rfl

/-- Reading goes text by text and construct by construct. -/
theorem scan_eq (decode : Bool) (s : List Char) :
    scan decode s =
      match construct? (textRun s).2 with
      | none => .ok (textTokens decode (textRun s).1)
      | some kind =>
        (readConstruct decode kind (textRun s).2).bind fun (tokens, rest) =>
          (scan decode rest).map (textTokens decode (textRun s).1 ++ tokens ++ ·) := by
  rw [scan]
  split
  · next hk => rw [hk]
  · next kind hk =>
    rw [hk]
    split
    · next hr =>
      change _ = (readConstruct decode kind (textRun s).2).bind _
      rw [hr]
      rfl
    · next tokens rest hr =>
      change _ = (readConstruct decode kind (textRun s).2).bind _
      rw [hr]
      change _ = (scan decode rest).map _
      cases scan decode rest <;> rfl

theorem scan_construct (h : construct? s = some kind) :
    scan decode s =
      (readConstruct decode kind s).bind fun (tokens, rest) =>
        (scan decode rest).map (tokens ++ ·) := by
  have hrun : textRun s = ([], s) := breakAt_here (.inr (Option.isSome_iff_exists.2 ⟨_, h⟩))
  rw [scan_eq, hrun]
  simp only [h]
  rfl

theorem scan_text (hs : Plain s) (hrest : AtConstruct rest) :
    scan decode (s ++ rest) = (scan decode rest).map (textTokens decode s ++ ·) := by
  rw [scan_eq, textRun_append hs hrest]
  rcases hrest with rfl | hrest
  · rw [scan_nil]
    exact congrArg Except.ok (List.append_nil _).symm
  · obtain ⟨kind, hkind⟩ := Option.isSome_iff_exists.1 hrest
    rw [scan_construct hkind]
    simp only [hkind]
    cases readConstruct decode kind rest with
    | error fault => rfl
    | ok result =>
      change (scan decode result.2).map _ = Except.map _ ((scan decode result.2).map _)
      cases scan decode result.2 with
      | error fault => rfl
      | ok more => exact congrArg Except.ok (List.append_assoc _ _ _)

/-! ## Attribute by attribute -/

variable {name t : List Char} {tag : Opening}

theorem readAttributes_close (hs : trimStart s = '>' :: t) :
    readAttributes decode name tag s = .ok ([], false, t) := by
  rw [readAttributes]
  split
  · next heq => rw [hs] at heq; cases heq
  · next heq =>
    rw [hs] at heq
    cases heq
    rw [if_pos rfl]

theorem readAttributes_selfClose (hs : trimStart s = '/' :: '>' :: t) :
    readAttributes decode name tag s = .ok ([], true, t) := by
  rw [readAttributes]
  split
  · next heq => rw [hs] at heq; cases heq
  · next heq =>
    rw [hs] at heq
    cases heq
    rw [if_neg (by decide), if_pos rfl]
    rfl

theorem readAttributes_slash (hs : trimStart s = '/' :: t) (ht : strip? ['>'] t = none) :
    readAttributes decode name tag s = readAttributes decode name tag t := by
  rw [readAttributes]
  split
  · next heq => rw [hs] at heq; cases heq
  · next heq =>
    rw [hs] at heq
    cases heq
    rw [if_neg (by decide), if_pos rfl, ht]

theorem readAttributes_attribute {c : Char} (hs : trimStart s = c :: t) (hend : c ≠ '>')
    (hslash : c ≠ '/') :
    readAttributes decode name tag s =
      (readAttribute decode tag c t).bind fun (a, after) =>
        (readAttributes decode name tag after).map fun (more, closes, rest) =>
          (a :: more, closes, rest) := by
  rw [readAttributes]
  split
  · next heq => rw [hs] at heq; cases heq
  · next heq =>
    rw [hs] at heq
    cases heq
    rw [if_neg hend, if_neg hslash]
    split
    · next h => rw [h]; rfl
    · next after h =>
      rw [h]
      change _ = (readAttributes decode name tag after).map _
      cases readAttributes decode name tag after <;> rfl

theorem readAttributes_of_attribute {c : Char} {a : Attribute} {after : List Char}
    {more : List Attribute} {closes : Bool} (hs : trimStart s = c :: t) (hend : c ≠ '>')
    (hslash : c ≠ '/') (ha : readAttribute decode tag c t = .ok (a, after))
    (hmore : readAttributes decode name tag after = .ok (more, closes, rest)) :
    readAttributes decode name tag s = .ok (a :: more, closes, rest) := by
  rw [readAttributes_attribute hs hend hslash, ha]
  change (readAttributes decode name tag after).map _ = _
  rw [hmore]
  rfl

end GridMarkup.Scan
