import GridMarkup.FileTree
import Mathlib.Data.List.Lex

/-!
# The order of a walk

Names are compared character by character, and keys name by name. Both orders are total, so a walk
visits the files below a directory in the order of their keys.
-/

namespace GridMarkup.FileTree

variable {a b c : Key} {t : FileTree} {directory : Key}

/-- Characters by their numbers. -/
def CharBefore (c d : Char) : Prop := c.toNat < d.toNat

instance : IsOrderConnected Char CharBefore :=
  ⟨fun c d e h => by unfold CharBefore at *; omega⟩

instance : Std.Trichotomous CharBefore :=
  ⟨fun c d h h' => by unfold CharBefore at h h'; exact Char.toNat_inj.1 (by omega)⟩

instance : Std.Asymm CharBefore :=
  ⟨fun c d h h' => by unfold CharBefore at h h'; omega⟩

/-! ## Names -/

def NameBefore (a b : String) : Prop := List.Lex CharBefore a.toList b.toList

theorem nameBefore_iff {a b : String} : nameBefore a b = true ↔ NameBefore a b := by
  unfold nameBefore NameBefore
  rw [List.lex_eq_true_iff_lex]
  simp only [decide_eq_true_eq]
  rfl

instance : IsOrderConnected String NameBefore :=
  ⟨fun a b c h => IsOrderConnected.conn a.toList b.toList c.toList h⟩

instance : Std.Trichotomous NameBefore :=
  ⟨fun a b h h' => String.toList_inj.1 (Std.Trichotomous.trichotomous a.toList b.toList h h')⟩

instance : Std.Asymm NameBefore :=
  ⟨fun a b h h' => Std.Asymm.asymm (r := List.Lex CharBefore) a.toList b.toList h h'⟩

/-! ## Keys -/

def KeyBefore (a b : Key) : Prop := List.Lex NameBefore a b

instance : IsOrderConnected Key KeyBefore :=
  inferInstanceAs (IsOrderConnected (List String) (List.Lex NameBefore))

instance : Std.Asymm KeyBefore := inferInstanceAs (Std.Asymm (List.Lex NameBefore))

theorem keyBefore_iff : keyBefore a b = true ↔ KeyBefore a b := by
  unfold keyBefore KeyBefore
  rw [List.lex_eq_true_iff_lex]
  simp only [nameBefore_iff]

theorem KeyBefore.asymm (h : KeyBefore a b) : ¬ KeyBefore b a :=
  Std.Asymm.asymm a b h

theorem KeyBefore.or_of_between (h : KeyBefore a c) (b : Key) : KeyBefore a b ∨ KeyBefore b c :=
  IsOrderConnected.conn a b c h

/-- In the same directory, the names decide. -/
theorem keyBefore_append (directory : Key) {m n : String} (h : NameBefore m n) :
    KeyBefore (directory ++ [m]) (directory ++ [n]) :=
  List.Lex.append_left NameBefore (.rel h) directory

/-! ## Files below a directory -/

/-- No file is visited after one that its key comes before. -/
theorem filesBelow_sorted (t : FileTree) (directory : Key) :
    (t.filesBelow directory).Pairwise fun a b => ¬ KeyBefore b a := by
  have hle {a b : Key} : (!keyBefore b a) = true ↔ ¬ KeyBefore b a := by
    rw [Bool.not_eq_true', ← Bool.not_eq_true, keyBefore_iff]
  refine (List.pairwise_mergeSort ?_ ?_ _).imp hle.1
  · intro a b c hab hbc
    rw [hle] at hab hbc ⊢
    intro hca
    rcases hca.or_of_between b with hcb | hba
    · exact hbc hcb
    · exact hab hba
  · intro a b
    rw [Bool.or_eq_true, hle, hle]
    by_cases hba : KeyBefore b a
    · exact .inr hba.asymm
    · exact .inl hba

end GridMarkup.FileTree
