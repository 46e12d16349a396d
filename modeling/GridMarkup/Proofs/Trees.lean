import GridMarkup.Path
import GridMarkup.Proofs.Search

/-!
# Writing into a tree

A written file takes the place of what was at its key and leaves every other key as it was. Where
its directory was there before, no directory comes or goes.
-/

namespace GridMarkup

namespace FileTree

variable {t : FileTree} {key k above : Key} {entry : Entry} {entries : List (Key × Entry)}

/-- The tree with a text at a key. -/
def put (t : FileTree) (key : Key) (text : String) : FileTree :=
  { t with entries := replace key (.file text.toUTF8) t.entries }

/-! ## Files -/

theorem lookup_cons (first : Key × Entry) (rest : List (Key × Entry)) (k : Key) :
    (first :: rest).lookup k = if k = first.1 then some first.2 else rest.lookup k := by
  rw [List.lookup_cons]
  by_cases hk : k = first.1
  · rw [if_pos hk, beq_iff_eq.2 hk]
  · rw [if_neg hk, beq_eq_false_iff_ne.2 hk]

theorem lookup_replace (key : Key) (entry : Entry) (entries : List (Key × Entry)) (k : Key) :
    (replace key entry entries).lookup k = if k = key then some entry else entries.lookup k := by
  induction entries with
  | nil => exact lookup_cons (key, entry) [] k
  | cons first rest ih =>
    unfold replace
    by_cases hfirst : first.1 = key
    · rw [if_pos hfirst, lookup_cons, lookup_cons, hfirst]
      split <;> rfl
    · rw [if_neg hfirst, lookup_cons, lookup_cons, ih]
      by_cases hk : k = first.1
      · have hkey : k ≠ key := by rwa [hk]
        rw [if_pos hk, if_neg hkey, if_pos hk]
      · rw [if_neg hk, if_neg hk]

theorem find?_put (t : FileTree) (key : Key) (text : String) (k : Key) :
    (t.put key text).find? k = if k = key then some (.file text.toUTF8) else t.find? k :=
  lookup_replace key _ t.entries k

theorem writeFault?_eq_none_iff :
    t.writeFault? key = none ↔ t.isDirectory key = false ∧ key ∉ t.readOnly := by
  unfold writeFault?
  split
  · next hdirectory => simp [hdirectory]
  · next hdirectory =>
    split
    · next hlocked => simpa [hdirectory] using hlocked
    · next hlocked => simpa [hdirectory] using hlocked

/-- What can be written depends on the directories and on what is read-only. -/
theorem writeFault?_congr {t t' : FileTree} (hdirectory : t.isDirectory key = t'.isDirectory key)
    (hreadOnly : t.readOnly = t'.readOnly) : t.writeFault? key = t'.writeFault? key := by
  unfold writeFault?
  rw [hdirectory, hreadOnly]

theorem mem_of_find? (h : t.find? key = some entry) : (key, entry) ∈ t.entries := by
  obtain ⟨before, after, hentries, -⟩ := List.lookup_eq_some_iff.1 h
  rw [hentries]
  exact List.mem_append_cons_self

/-- What is written at a key depends on nothing else of the tree. -/
theorem readText_congr {t t' : FileTree} (h : t.find? key = t'.find? key) :
    (t.readText key).toOption = (t'.readText key).toOption := by
  unfold readText read
  rw [h]
  cases t'.find? key with
  | none => rfl
  | some entry => cases entry <;> rfl

/-! ## Directories -/

theorem makesDirectory_of_prefix (habove : above <+: k) {e : Key × Entry}
    (h : Entry.makesDirectory k e = true) : Entry.makesDirectory above e = true := by
  obtain ⟨key, entry⟩ := e
  cases entry with
  | directory =>
    simp only [Entry.makesDirectory, List.isPrefixOf_iff_prefix] at h ⊢
    exact habove.trans h
  | file content =>
    simp only [Entry.makesDirectory, Bool.and_eq_true, List.isPrefixOf_iff_prefix,
      bne_iff_ne] at h ⊢
    refine ⟨habove.trans h.1, ?_⟩
    rintro rfl
    exact h.2 (habove.eq_of_length (Nat.le_antisymm habove.length_le h.1.length_le))

theorem prefix_dropLast (h : k <+: key) (hne : k ≠ key) : k <+: key.dropLast := by
  refine List.prefix_of_prefix_length_le h (List.dropLast_prefix key) ?_
  have hle := h.length_le
  have hlength : k.length ≠ key.length := fun heq => hne (h.eq_of_length heq)
  rw [List.length_dropLast]
  omega

/-- Everything lies in a directory. -/
theorem makesDirectory_dropLast (hkey : key ≠ []) (entry : Entry) :
    Entry.makesDirectory key.dropLast (key, entry) = true := by
  have hpre : key.dropLast <+: key := List.dropLast_prefix key
  have hne : key ≠ key.dropLast := by
    intro heq
    have hlength := congrArg List.length heq
    have hpos := List.length_pos_iff.2 hkey
    rw [List.length_dropLast] at hlength
    omega
  cases entry with
  | directory => exact List.isPrefixOf_iff_prefix.2 hpre
  | file content =>
    simp only [Entry.makesDirectory, Bool.and_eq_true, List.isPrefixOf_iff_prefix, bne_iff_ne]
    exact ⟨hpre, hne⟩

theorem mem_replace (key : Key) (entry : Entry) (entries : List (Key × Entry)) :
    (key, entry) ∈ replace key entry entries := by
  induction entries with
  | nil => exact List.mem_singleton_self _
  | cons first rest ih =>
    unfold replace
    split
    · exact List.mem_cons_self
    · exact List.mem_cons_of_mem _ ih

/-- Nothing but the entry comes, and nothing goes but what was at its key. -/
theorem mem_of_mem_replace {e : Key × Entry} (h : e ∈ replace key entry entries) :
    e = (key, entry) ∨ e ∈ entries := by
  induction entries with
  | nil => exact .inl (List.mem_singleton.1 h)
  | cons first rest ih =>
    unfold replace at h
    split at h
    · exact (List.mem_cons.1 h).imp_right (List.mem_cons_of_mem _)
    · rcases List.mem_cons.1 h with rfl | h
      · exact .inr List.mem_cons_self
      · exact (ih h).imp_right (List.mem_cons_of_mem _)

theorem mem_replace_of_mem {e : Key × Entry} (h : e ∈ entries) (hkey : e.1 ≠ key) :
    e ∈ replace key entry entries := by
  induction entries with
  | nil => cases h
  | cons first rest ih =>
    unfold replace
    rcases List.mem_cons.1 h with rfl | h
    · rw [if_neg hkey]
      exact List.mem_cons_self
    · split
      · exact List.mem_cons_of_mem _ h
      · exact List.mem_cons_of_mem _ (ih h)

/-- A file that is written beside something else leaves all directories as they are. -/
theorem isDirectory_put (hkey : t.isDirectory key = false)
    (hbeside : ∃ e ∈ t.entries, e.1 ≠ [] ∧ e.1.dropLast = key.dropLast) (text : String) (k : Key) :
    (t.put key text).isDirectory k = t.isDirectory k := by
  have hany : (t.put key text).entries.any (Entry.makesDirectory k) =
      t.entries.any (Entry.makesDirectory k) := by
    rw [Bool.eq_iff_iff, List.any_eq_true, List.any_eq_true]
    constructor
    · rintro ⟨e, he, hmakes⟩
      rcases mem_of_mem_replace he with rfl | he
      · -- The directory of the new file is the directory of what stands beside it.
        obtain ⟨⟨beside, entry⟩, hmem, hne, hdir⟩ := hbeside
        simp only [Entry.makesDirectory, Bool.and_eq_true, List.isPrefixOf_iff_prefix,
          bne_iff_ne] at hmakes
        have habove : k <+: beside.dropLast := by
          rw [hdir]
          exact prefix_dropLast hmakes.1 (Ne.symm hmakes.2)
        exact ⟨_, hmem, makesDirectory_of_prefix habove (makesDirectory_dropLast hne entry)⟩
      · exact ⟨e, he, hmakes⟩
    · rintro ⟨⟨k', entry⟩, he, hmakes⟩
      by_cases hk : k' = key
      · subst hk
        cases entry with
        | file content => exact ⟨_, mem_replace _ _ _, hmakes⟩
        | directory =>
          have hself : Entry.makesDirectory k' (k', .directory) = true :=
            List.isPrefixOf_iff_prefix.2 List.prefix_rfl
          have hdirectory : t.isDirectory k' = true := by
            unfold isDirectory
            rw [List.any_eq_true.2 ⟨_, he, hself⟩, Bool.or_true]
          rw [hkey] at hdirectory
          cases hdirectory
      · exact ⟨_, mem_replace_of_mem he hk, hmakes⟩
  unfold isDirectory
  rw [hany]

theorem isDirectory_dropLast (h : t.isDirectory key = true) : t.isDirectory key.dropLast = true := by
  unfold isDirectory at h ⊢
  simp only [Bool.or_eq_true] at h ⊢
  rcases h with (h | h) | h
  · refine .inl (.inl (List.all_eq_true.2 fun part hpart => ?_))
    exact List.all_eq_true.1 h part (List.mem_of_mem_dropLast hpart)
  · rw [beq_iff_eq.1 h]
    exact .inl (.inl rfl)
  · obtain ⟨e, he, hmakes⟩ := List.any_eq_true.1 h
    exact .inr (List.any_eq_true.2
      ⟨e, he, makesDirectory_of_prefix (List.dropLast_prefix key) hmakes⟩)

end FileTree

/-! ## Paths -/

namespace Path

open FileTree (Key)

variable {t : FileTree} {key next : Key} {part path : String} {ps : List String}

/-- One part further there is a directory, or something of that name. -/
theorem enter_eq (h : enter t key part = .ok next) :
    t.isDirectory next = true ∨ next = key ++ [part] := by
  unfold enter at h
  split at h
  · cases h
  · next hkey =>
    split at h
    · cases h
    · split at h
      · cases h
        have hdirectory : t.isDirectory key = true := by simpa using hkey
        unfold follow
        split
        · exact .inl hdirectory
        · split
          · exact .inl hdirectory
          · split
            · exact .inl (FileTree.isDirectory_dropLast hdirectory)
            · exact .inr rfl
      · cases h

theorem getLast?_of_foldlM (hps : ps ≠ []) (h : ps.foldlM (enter t) key = .ok next)
    (hnext : t.isDirectory next = false) : next.getLast? = ps.getLast? := by
  obtain ⟨front, part, rfl⟩ := (List.eq_nil_or_concat ps).resolve_left hps
  rw [List.concat_eq_append, List.foldlM_append] at h
  cases hfront : front.foldlM (enter t) key with
  | error fault =>
    rw [hfront] at h
    cases h
  | ok between =>
    rw [hfront] at h
    have henter : enter t between part = .ok next := by
      cases hpart : enter t between part with
      | error fault => simp [hpart, bind, Except.bind] at h
      | ok last => simpa [hpart, bind, Except.bind, pure, Except.pure] using h
    rcases enter_eq henter with hdirectory | rfl
    · rw [hnext] at hdirectory
      cases hdirectory
    · simp

theorem parts_ne_nil (path : String) : parts path ≠ [] := by
  unfold parts
  rw [ne_eq, List.map_eq_nil_iff]
  exact Text.splitWhere_ne_nil _ _

/-- What a path leads to has the path's name, if it is no directory. -/
theorem name_of_resolve (h : resolve t path = .ok key) (hkey : t.isDirectory key = false) :
    key.getLast? = some (name path) := by
  have hname : (parts path).getLast? = some (name path) := by
    unfold name
    rw [List.getLast?_eq_some_getLast (parts_ne_nil path), Option.getD_some]
  have hfold : (start path).2.foldlM (enter t) (start path).1 = .ok key := by
    unfold resolve at h
    split at h
    · cases h
    · split at h
      · cases h
      · split at h
        · cases h
        · exact h
  rw [← hname]
  unfold start at hfold
  split at hfold
  · next rest hparts =>
    have hrest : rest ≠ [] := by
      rintro rfl
      cases hfold
      cases hkey
    rw [getLast?_of_foldlM hrest hfold hkey, hparts, List.getLast?_cons_of_ne_nil hrest]
  · exact getLast?_of_foldlM (parts_ne_nil path) hfold hkey

end Path

end GridMarkup
