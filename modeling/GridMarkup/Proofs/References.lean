import GridMarkup.Proofs.Codec
import Mathlib.Data.List.Forall2
import Mathlib.Data.Nat.Digits.Defs

/-!
# Character references

The grammar of references, and reading a text from left to right with every reference replaced by its
character. Decoding is this reading, except that it takes a plus sign in front of the digits of a
number. So it reads exactly the texts right that hold no number with a sign.
-/

namespace GridMarkup.Text

/-! ## The grammar -/

/-- The character is the digit `n`. A letter may be a capital. -/
def IsDigit (base : Nat) (c : Char) (n : Nat) : Prop :=
  n < base ∧ (c = Nat.digitChar n ∨ c = (Nat.digitChar n).toUpper)

/-- The text is a number with one digit at least, the most significant one in front. -/
def IsNumber (base : Nat) (s : List Char) (n : Nat) : Prop :=
  s ≠ [] ∧ ∃ digits, List.Forall₂ (IsDigit base) s digits ∧ n = Nat.ofDigits base digits.reverse

/-- What stands between `&` and `;` in a reference, and the character that it refers to. -/
inductive Denotes : List Char → Char → Prop where
  | amp : Denotes "amp".toList '&'
  | lt : Denotes "lt".toList '<'
  | gt : Denotes "gt".toList '>'
  | quot : Denotes "quot".toList '"'
  | apos : Denotes "apos".toList '\''
  | nbsp : Denotes "nbsp".toList '\u00a0'
  | decimal {s : List Char} {c : Char} (h : IsNumber 10 s c.toNat) : Denotes ('#' :: s) c
  | hexadecimal {x : Char} {s : List Char} {c : Char} (hx : x = 'x' ∨ x = 'X')
      (h : IsNumber 16 s c.toNat) : Denotes ('#' :: x :: s) c

/-- The same with a plus sign in front of the digits. No reference is written like this. -/
inductive Signed : List Char → Char → Prop where
  | decimal {s : List Char} {c : Char} (h : IsNumber 10 s c.toNat) : Signed ('#' :: '+' :: s) c
  | hexadecimal {x : Char} {s : List Char} {c : Char} (hx : x = 'x' ∨ x = 'X')
      (h : IsNumber 16 s c.toNat) : Signed ('#' :: x :: '+' :: s) c

/-- One text is read as the other: every reference is replaced by its character and all else is
copied. What a reference was replaced by is not read again. -/
inductive Replaces (P : List Char → Char → Prop) : List Char → List Char → Prop where
  | nil : Replaces P [] []
  | reference {body rest out : List Char} {c : Char} (hbody : P body c)
      (h : Replaces P rest out) : Replaces P ('&' :: (body ++ ';' :: rest)) (c :: out)
  | copy {c : Char} {s out : List Char}
      (hno : ∀ body d rest, P body d → c :: s ≠ '&' :: (body ++ ';' :: rest))
      (h : Replaces P s out) : Replaces P (c :: s) (c :: out)

variable {base n : Nat} {c d : Char} {s body body' rest rest' out : List Char}
  {P Q : List Char → Char → Prop}

/-! ## Digits and numbers -/

theorem digit?_of_le (hbase : base ≤ 16) :
    digit? base c = some n ↔ n < base ∧ digit? 16 c = some n := by
  simp only [digit?, Option.ite_none_right_eq_some, Option.some.injEq]
  split <;> grind

theorem lt_of_digit? (h : digit? 16 c = some n) : c.toNat < 103 := by
  have hle {d : Char} (hcd : c ≤ d) : c.toNat ≤ d.toNat := hcd
  by_contra hc
  have hsmall : ¬ c ≤ 'f' := fun hcd => hc (Nat.lt_succ_of_le (hle hcd))
  have hcapital : ¬ c ≤ 'F' := fun hcd => hc (Nat.lt_of_le_of_lt (hle hcd) (by decide))
  have hdigit : ¬ c ≤ '9' := fun hcd => hc (Nat.lt_of_le_of_lt (hle hcd) (by decide))
  simp [digit?, hsmall, hcapital, hdigit] at h

theorem digit?_eq_some_iff (hbase : base ≤ 16) : digit? base c = some n ↔ IsDigit base c n := by
  have hvalue : ∀ n < 16, digit? 16 (Nat.digitChar n) = some n ∧
      digit? 16 (Nat.digitChar n).toUpper = some n := by decide
  have hspelled : ∀ k < 103, ∀ n < 16, digit? 16 (Char.ofNat k) = some n →
      Char.ofNat k = Nat.digitChar n ∨ Char.ofNat k = (Nat.digitChar n).toUpper := by decide
  rw [digit?_of_le hbase, IsDigit]
  refine and_congr_right fun hn => ⟨fun h => ?_, ?_⟩
  · have hc := hspelled c.toNat (lt_of_digit? h) n (by omega)
    rw [Char.ofNat_toNat] at hc
    exact hc h
  · rintro (rfl | rfl)
    · exact (hvalue n (by omega)).1
    · exact (hvalue n (by omega)).2

/-- Reading goes on from the number of the digits in front. -/
theorem foldlM_digit? (hbase : base ≤ 16) (start : Nat) :
    s.foldlM (fun n c => (digit? base c).map (n * base + ·)) start = some n ↔
      ∃ digits, List.Forall₂ (IsDigit base) s digits ∧
        n = digits.foldl (fun n d => n * base + d) start := by
  induction s generalizing start with
  | nil => simp [List.forall₂_nil_left_iff, eq_comm]
  | cons c s ih =>
    simp only [List.foldlM_cons, Option.bind_eq_bind, Option.bind_eq_some_iff, Option.map_eq_some_iff,
      digit?_eq_some_iff hbase, ih, List.forall₂_cons_left_iff]
    constructor
    · rintro ⟨_, ⟨d, hd, rfl⟩, digits, hdigits, rfl⟩
      exact ⟨d :: digits, ⟨d, digits, hd, hdigits, rfl⟩, rfl⟩
    · rintro ⟨_, ⟨d, digits, hd, hdigits, rfl⟩, rfl⟩
      exact ⟨_, ⟨d, hd, rfl⟩, digits, hdigits, rfl⟩

theorem foldl_digits (base : Nat) (digits : List Nat) :
    digits.foldl (fun n d => n * base + d) 0 = Nat.ofDigits base digits.reverse := by
  induction digits using List.reverseRecOn with
  | nil => rfl
  | append_singleton digits d ih =>
    rw [List.foldl_append, ih, List.reverse_append, List.reverse_singleton, List.singleton_append,
      Nat.ofDigits_cons]
    simp [Nat.mul_comm, Nat.add_comm]

theorem digits?_eq_some_iff (hbase : base ≤ 16) : digits? base s = some n ↔ IsNumber base s n := by
  cases s with
  | nil => simp [digits?, IsNumber]
  | cons c s =>
    have hne : c :: s ≠ [] := List.cons_ne_nil c s
    simp only [digits?, foldlM_digit? hbase, foldl_digits, IsNumber, hne, ne_eq, not_false_eq_true,
      true_and]

/-- No sign, no letter in front of a hexadecimal number and no end of a reference is a digit. -/
theorem IsNumber.ne_of_mem (hbase : base ≤ 16) (h : IsNumber base s n) :
    ∀ c ∈ s, c ∉ ['+', 'x', 'X', '&', ';'] := by
  have hdigit : ∀ n < 16, Nat.digitChar n ∉ ['+', 'x', 'X', '&', ';'] ∧
      (Nat.digitChar n).toUpper ∉ ['+', 'x', 'X', '&', ';'] := by decide
  obtain ⟨-, digits, hdigits, -⟩ := h
  have hboth : List.Forall₂ (fun c d => c ∉ ['+', 'x', 'X', '&', ';'] ∧ IsDigit base c d) s digits := by
    refine hdigits.imp fun c d hd => ⟨?_, hd⟩
    obtain ⟨hplain, hcapital⟩ := hdigit d (Nat.lt_of_lt_of_le hd.1 hbase)
    rcases hd.2 with rfl | rfl
    · exact hplain
    · exact hcapital
  exact ((List.forall₂_and_left s digits).1 hboth).1

theorem number?_eq_some_iff (hbase : base ≤ 16) :
    number? base s = some n ↔ IsNumber base s n ∨ ∃ t, s = '+' :: t ∧ IsNumber base t n := by
  unfold number?
  split
  · next t =>
    have hsign : ¬ IsNumber base ('+' :: t) n :=
      fun h => absurd (h.ne_of_mem hbase '+' List.mem_cons_self) (by decide)
    simp [digits?_eq_some_iff hbase, hsign]
  · next hplus =>
    have hsign : ¬ ∃ t, s = '+' :: t ∧ IsNumber base t n := fun ⟨t, ht, _⟩ => hplus t ht
    simp [digits?_eq_some_iff hbase, hsign]

theorem scalar?_eq_some_iff : scalar? n = some c ↔ c.toNat = n := by
  unfold scalar?
  constructor
  · intro h
    obtain ⟨hn, heq⟩ := Option.ite_none_right_eq_some.1 h
    cases heq
    rw [Char.ofNat, dif_pos hn]
    rfl
  · rintro rfl
    have hvalid : c.toNat.isValidChar := c.valid
    rw [if_pos hvalid, Char.ofNat_toNat]

theorem numeric_eq_some_iff (hbase : base ≤ 16) :
    (number? base s).bind scalar? = some c ↔
      IsNumber base s c.toNat ∨ ∃ t, s = '+' :: t ∧ IsNumber base t c.toNat := by
  simp only [Option.bind_eq_some_iff, scalar?_eq_some_iff]
  constructor
  · rintro ⟨_, h, rfl⟩
    exact (number?_eq_some_iff hbase).1 h
  · exact fun h => ⟨_, (number?_eq_some_iff hbase).2 h, rfl⟩

/-! ## References -/

/-- What decoding takes for a reference: those of the grammar, and numbers with a sign. -/
def Decoded (body : List Char) (c : Char) : Prop := Denotes body c ∨ Signed body c

theorem character?_decimal (h : ∀ c ∈ s.head?, c ≠ 'x' ∧ c ≠ 'X') :
    character? ('#' :: s) = (number? 10 s).bind scalar? := by
  cases s with
  | nil => rfl
  | cons d s =>
    obtain ⟨hx, hX⟩ := h d rfl
    simp [character?, hx, hX]

theorem denotes_of_lookup (h : namedReferences.lookup (String.ofList body) = some c) :
    Denotes body c := by
  have hmem : (String.ofList body, c) ∈ namedReferences := by
    obtain ⟨front, back, heq, -⟩ := List.lookup_eq_some_iff.1 h
    simp [heq]
  have hbody : body = (String.ofList body).toList := String.toList_ofList.symm
  rw [hbody]
  simp only [namedReferences, List.mem_cons, List.not_mem_nil, or_false, Prod.mk.injEq] at hmem
  rcases hmem with ⟨hname, rfl⟩ | ⟨hname, rfl⟩ | ⟨hname, rfl⟩ | ⟨hname, rfl⟩ | ⟨hname, rfl⟩ |
    ⟨hname, rfl⟩ <;> rw [hname]
  · exact .amp
  · exact .lt
  · exact .gt
  · exact .quot
  · exact .apos
  · exact .nbsp

theorem character?_eq_some_iff : character? body = some c ↔ Decoded body c := by
  constructor
  · intro h
    unfold character? at h
    split at h
    · next s =>
      rcases (numeric_eq_some_iff (by decide)).1 h with hs | ⟨t, rfl, ht⟩
      · exact .inl (.hexadecimal (.inl rfl) hs)
      · exact .inr (.hexadecimal (.inl rfl) ht)
    · next s =>
      rcases (numeric_eq_some_iff (by decide)).1 h with hs | ⟨t, rfl, ht⟩
      · exact .inl (.hexadecimal (.inr rfl) hs)
      · exact .inr (.hexadecimal (.inr rfl) ht)
    · next s _ _ =>
      rcases (numeric_eq_some_iff (by decide)).1 h with hs | ⟨t, rfl, ht⟩
      · exact .inl (.decimal hs)
      · exact .inr (.decimal ht)
    · exact .inl (denotes_of_lookup h)
  · rintro (h | h)
    · cases h with
      | @decimal s _ h =>
        have hhead : ∀ d ∈ s.head?, d ≠ 'x' ∧ d ≠ 'X' := by
          intro d hd
          have hne := h.ne_of_mem (by decide) d (List.mem_of_mem_head? hd)
          exact ⟨fun heq => hne (by simp [heq]), fun heq => hne (by simp [heq])⟩
        rw [character?_decimal hhead]
        exact (numeric_eq_some_iff (by decide)).2 (.inl h)
      | hexadecimal hx h =>
        have hnumber := (numeric_eq_some_iff (by decide)).2 (.inl h)
        rcases hx with rfl | rfl <;> exact hnumber
      | _ => rfl
    · cases h with
      | @decimal s _ h =>
        rw [character?_decimal (by simp)]
        exact (numeric_eq_some_iff (by decide)).2 (.inr ⟨s, rfl, h⟩)
      | @hexadecimal _ s _ hx h =>
        have hnumber := (numeric_eq_some_iff (by decide)).2 (.inr ⟨s, rfl, h⟩)
        rcases hx with rfl | rfl <;> exact hnumber

theorem Decoded.ne_of_mem (h : Decoded body c) : ∀ d ∈ body, d ≠ '&' ∧ d ≠ ';' := by
  have hdigits {base : Nat} (hbase : base ≤ 16) {s : List Char} (hs : IsNumber base s c.toNat) :
      ∀ d ∈ s, d ≠ '&' ∧ d ≠ ';' := by
    intro d hd
    have hne := hs.ne_of_mem hbase d hd
    exact ⟨fun heq => hne (by simp [heq]), fun heq => hne (by simp [heq])⟩
  have hcons {d : Char} {s : List Char} (hd : d ≠ '&' ∧ d ≠ ';') (hs : ∀ d ∈ s, d ≠ '&' ∧ d ≠ ';') :
      ∀ e ∈ d :: s, e ≠ '&' ∧ e ≠ ';' := List.forall_mem_cons.2 ⟨hd, hs⟩
  rcases h with h | h
  · cases h with
    | decimal h => exact hcons (by decide) (hdigits (by decide) h)
    | hexadecimal hx h =>
      refine hcons (by decide) (hcons ?_ (hdigits (by decide) h))
      rcases hx with rfl | rfl <;> decide
    | _ => simp
  · cases h with
    | decimal h => exact hcons (by decide) (hcons (by decide) (hdigits (by decide) h))
    | hexadecimal hx h =>
      refine hcons (by decide) (hcons ?_ (hcons (by decide) (hdigits (by decide) h)))
      rcases hx with rfl | rfl <;> decide

/-- No number has a sign in the grammar. -/
theorem Signed.not_denotes (h : Signed body c) : ¬ Denotes body d := by
  intro hd
  cases h with
  | decimal h =>
    cases hd with
    | decimal hs => exact absurd (hs.ne_of_mem (by decide) '+' List.mem_cons_self) (by decide)
    | hexadecimal hx _ => simp at hx
  | hexadecimal hx h =>
    cases hd with
    | decimal hs =>
      have hne := hs.ne_of_mem (by decide) _ List.mem_cons_self
      rcases hx with rfl | rfl <;> exact absurd hne (by decide)
    | hexadecimal _ hs => exact absurd (hs.ne_of_mem (by decide) '+' List.mem_cons_self) (by decide)

/-! ## Decoding -/

theorem reference?_eq_some (h : reference? s = some (c, rest)) :
    ∃ body, Decoded body c ∧ s = body ++ ';' :: rest := by
  unfold reference? at h
  split at h
  · next body after hcut =>
    obtain ⟨d, hd, heq⟩ := Option.map_eq_some_iff.1 h
    cases heq
    exact ⟨body, character?_eq_some_iff.1 hd, eq_of_cut? hcut⟩
  · cases h

theorem decode_decoded (h : Decoded body c) (rest : List Char) :
    decode ('&' :: (body ++ ';' :: rest)) = c :: decode rest :=
  decode_reference body (character?_eq_some_iff.2 h) (fun hmem => (h.ne_of_mem _ hmem).2 rfl) rest

theorem decode_of_none (h : reference? s = none) : decode ('&' :: s) = '&' :: decode s := by
  rw [decode, if_pos rfl]
  split
  · next hreference =>
    rw [h] at hreference
    cases hreference
  · rfl

theorem decode_copied (h : ∀ body d rest, Decoded body d → c :: s ≠ '&' :: (body ++ ';' :: rest)) :
    decode (c :: s) = c :: decode s := by
  by_cases hc : c = '&'
  · subst hc
    refine decode_of_none (Option.eq_none_iff_forall_ne_some.2 ?_)
    rintro ⟨d, rest⟩ hreference
    obtain ⟨body, hbody, rfl⟩ := reference?_eq_some hreference
    exact h body d rest hbody rfl
  · exact decode_cons_of_ne hc s

/-- A text starts with something that is decoded, or its first character is copied. -/
theorem decoded_or_copied (c : Char) (s : List Char) :
    (∃ body d rest, Decoded body d ∧ c :: s = '&' :: (body ++ ';' :: rest)) ∨
      ∀ body d rest, Decoded body d → c :: s ≠ '&' :: (body ++ ';' :: rest) := by
  by_cases h : ∃ body d rest, Decoded body d ∧ c :: s = '&' :: (body ++ ';' :: rest)
  · exact .inl h
  · exact .inr fun body d rest hbody heq => h ⟨body, d, rest, hbody, heq⟩

theorem replaces_decode (s : List Char) : Replaces Decoded s (decode s) := by
  induction hn : s.length using Nat.strong_induction_on generalizing s with
  | _ n ih =>
    cases s with
    | nil =>
      rw [decode_nil]
      exact .nil
    | cons c s =>
      rcases decoded_or_copied c s with ⟨body, d, rest, hbody, heq⟩ | hno
      · rw [heq, decode_decoded hbody]
        refine .reference hbody (ih rest.length ?_ rest rfl)
        rw [← hn, heq]
        simp
        omega
      · rw [decode_copied hno]
        exact .copy hno (ih s.length (by rw [← hn]; simp) s rfl)

theorem Replaces.eq_decode (h : Replaces Decoded s out) : out = decode s := by
  induction h with
  | nil => exact decode_nil.symm
  | reference hbody _ ih => rw [decode_decoded hbody, ih]
  | copy hno _ ih => rw [decode_copied hno, ih]

/-! ## Signs -/

theorem decode_append (h : ∀ c ∈ body, c ≠ '&') (s : List Char) :
    decode (body ++ s) = body ++ decode s := by
  induction body with
  | nil => rfl
  | cons c body ih =>
    obtain ⟨hc, hbody⟩ := List.forall_mem_cons.1 h
    rw [List.cons_append, decode_cons_of_ne hc, ih hbody, List.cons_append]

/-- Somewhere in the text a number has a sign where a reference would have none. -/
def HoldsSign (s : List Char) : Prop :=
  ∃ body c, Signed body c ∧ '&' :: (body ++ [';']) <:+: s

theorem infix_append_of_not_mem (h : c ∉ s) (hinside : c :: body <:+: s ++ rest) :
    c :: body <:+: rest := by
  induction s with
  | nil => exact hinside
  | cons d s ih =>
    rw [List.mem_cons, not_or] at h
    rcases List.infix_cons_iff.1 hinside with hpre | hinside
    · exact absurd (List.cons_prefix_cons.1 hpre).1 h.1
    · exact ih h.2 hinside

/-- A reference ends at its first semicolon. -/
theorem eq_of_prefix (hbody : ';' ∉ body) (hbody' : ';' ∉ body')
    (h : '&' :: (body ++ [';']) <+: '&' :: (body' ++ ';' :: rest)) : body = body' := by
  obtain ⟨after, hafter⟩ := (List.cons_prefix_cons.1 h).2
  have hcut : cut? [';'] (body' ++ ';' :: rest) = some (body', rest) := cut?_singleton hbody'
  rw [← hafter, List.append_assoc, List.singleton_append, cut?_singleton hbody] at hcut
  cases hcut
  rfl

theorem HoldsSign.behind (h : Denotes body c) (hsign : HoldsSign ('&' :: (body ++ ';' :: rest))) :
    HoldsSign rest := by
  obtain ⟨signed, d, hd, hinside⟩ := hsign
  have hplain : ∀ e ∈ body, e ≠ '&' ∧ e ≠ ';' := Decoded.ne_of_mem (.inl h)
  have hsigned : ∀ e ∈ signed, e ≠ '&' ∧ e ≠ ';' := Decoded.ne_of_mem (.inr hd)
  rcases List.infix_cons_iff.1 hinside with hpre | hinside
  · have hsame : signed = body := eq_of_prefix (fun hmem => (hsigned _ hmem).2 rfl)
      (fun hmem => (hplain _ hmem).2 rfl) hpre
    rw [hsame] at hd
    exact absurd h hd.not_denotes
  · have htail : body ++ ';' :: rest = (body ++ [';']) ++ rest := by simp
    rw [htail] at hinside
    refine ⟨signed, d, hd, infix_append_of_not_mem ?_ hinside⟩
    simpa using fun hmem => (hplain _ hmem).1 rfl

/-- Decoding replaces no less than the grammar asks for, and a number with a sign besides. -/
theorem Replaces.length_decode (h : Replaces Denotes s out) :
    (decode s).length ≤ out.length ∧ (HoldsSign s → (decode s).length < out.length) := by
  induction h with
  | nil =>
    rw [decode_nil]
    refine ⟨Nat.le_refl _, ?_⟩
    rintro ⟨body, c, -, hinside⟩
    exact absurd (List.infix_nil.1 hinside) (by simp)
  | reference hbody _ ih =>
    rw [decode_decoded (.inl hbody)]
    simp only [List.length_cons]
    exact ⟨by omega, fun hsign => by have := ih.2 (hsign.behind hbody); omega⟩
  | @copy c s out hno _ ih =>
    rcases decoded_or_copied c s with ⟨body, d, rest, hbody, heq⟩ | hcopied
    · -- The reading of the grammar copies what is decoded here, so the character is a number's.
      have hsigned : Signed body d := hbody.resolve_left fun hbody => hno body d rest hbody heq
      have hs : s = body ++ ';' :: rest := (List.cons.inj heq).2
      have hdecode : decode s = body ++ ';' :: decode rest := by
        rw [hs, decode_append fun e he => (hbody.ne_of_mem e he).1, decode_cons_of_ne (by decide)]
      have hlength := ih.1
      rw [hdecode, List.length_append, List.length_cons] at hlength
      rw [heq, decode_decoded hbody]
      simp only [List.length_cons]
      exact ⟨by omega, fun _ => by omega⟩
    · rw [decode_copied hcopied]
      simp only [List.length_cons]
      refine ⟨by omega, ?_⟩
      rintro ⟨body, d, hd, hinside⟩
      rcases List.infix_cons_iff.1 hinside with hpre | hinside
      · obtain ⟨rest, hrest⟩ := hpre
        exact absurd (by simpa using hrest.symm) (hcopied body d rest (.inr hd))
      · have := ih.2 ⟨body, d, hd, hinside⟩
        omega

/-- A reading depends on nothing but the references that can stand in the text. -/
theorem Replaces.congr (h : Replaces P s out)
    (hsame : ∀ body c, '&' :: (body ++ [';']) <:+: s → (P body c ↔ Q body c)) :
    Replaces Q s out := by
  induction h with
  | nil => exact .nil
  | @reference body rest _ c hbody _ ih =>
    refine .reference ((hsame body c ⟨[], rest, by simp⟩).1 hbody) (ih fun body' d hinside => ?_)
    refine hsame body' d (hinside.trans ?_)
    exact List.IsSuffix.isInfix ⟨'&' :: (body ++ [';']), by simp⟩
  | @copy c s _ hno _ ih =>
    refine .copy (fun body d rest hbody heq => ?_) (ih fun body d hinside => ?_)
    · have hinside : '&' :: (body ++ [';']) <:+: c :: s := ⟨[], rest, by simp [heq]⟩
      exact hno body d rest ((hsame body d hinside).2 hbody) heq
    · exact hsame body d (hinside.trans (List.suffix_cons c s).isInfix)

/-- Decoding reads a text from left to right and replaces every reference by its character, and a
number with a sign too. It reads a text as the grammar does exactly where no number has a sign. -/
theorem decode_replaces (s : List Char) :
    (∀ out, Replaces Decoded s out ↔ out = decode s) ∧
      ((∀ out, Replaces Denotes s out ↔ out = decode s) ↔ ¬ HoldsSign s) := by
  have hdecoded : ∀ out, Replaces Decoded s out ↔ out = decode s := by
    refine fun out => ⟨Replaces.eq_decode, ?_⟩
    rintro rfl
    exact replaces_decode s
  refine ⟨hdecoded, fun h hsign => ?_, fun hsign out => ?_⟩
  · exact absurd (((h _).2 rfl).length_decode.2 hsign) (Nat.lt_irrefl _)
  · have hsame : ∀ body c, '&' :: (body ++ [';']) <:+: s → (Denotes body c ↔ Decoded body c) :=
      fun body c hinside => ⟨.inl, fun h => h.resolve_right fun hc => hsign ⟨body, c, hc, hinside⟩⟩
    rw [← hdecoded]
    exact ⟨fun h => h.congr hsame, fun h => h.congr fun body c hinside => (hsame body c hinside).symm⟩

/-- A text with references next to what only looks like one. -/
theorem decode_replaces_mixed :
    ¬ HoldsSign "&&#x41;&#x110000;".toList ∧
      Replaces Denotes "&&#x41;&#x110000;".toList "&A&#x110000;".toList := by
  have hsign : ¬ HoldsSign "&&#x41;&#x110000;".toList := by
    rintro ⟨body, c, hbody, hinside⟩
    have hplus : '+' ∈ body := by cases hbody <;> simp
    exact absurd (hinside.subset (List.mem_cons_of_mem _ (List.mem_append_left _ hplus))) (by decide)
  have hplain : ∀ c ∈ "#x110000;".toList, c ≠ '&' := by simp
  have htail : decode "#x110000;".toList = "#x110000;".toList := by
    rw [← List.append_nil "#x110000;".toList, decode_append hplain, decode_nil]
  have hdecode : decode "&&#x41;&#x110000;".toList = "&A&#x110000;".toList := by
    calc decode "&&#x41;&#x110000;".toList
      _ = '&' :: decode "&#x41;&#x110000;".toList := decode_of_none (by decide)
      _ = '&' :: 'A' :: decode "&#x110000;".toList :=
        congrArg _ (decode_reference "#x41".toList (by decide) (by decide) _)
      _ = '&' :: 'A' :: '&' :: decode "#x110000;".toList :=
        congrArg _ (congrArg _ (decode_of_none (by decide)))
      _ = "&A&#x110000;".toList := by rw [htail]; rfl
  exact ⟨hsign, ((decode_replaces _).2.2 hsign _).2 hdecode.symm⟩

/-- A sign in front of the digits keeps nothing from being decoded. -/
theorem decode_takes_sign :
    decode "&#+65;".toList = ['A'] ∧ ¬ Replaces Denotes "&#+65;".toList (decode "&#+65;".toList) := by
  have hnumber : IsNumber 10 "65".toList 'A'.toNat :=
    ⟨by simp, [6, 5], by simp [IsDigit], rfl⟩
  have hdecode : decode "&#+65;".toList = 'A' :: decode [] :=
    decode_decoded (.inr (.decimal hnumber)) []
  refine ⟨by rw [hdecode, decode_nil], fun h => ?_⟩
  have hlength := h.length_decode.2 ⟨_, _, .decimal hnumber, [], [], rfl⟩
  exact absurd hlength (Nat.lt_irrefl _)

end GridMarkup.Text
