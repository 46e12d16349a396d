import GridMarkup.Proofs.Sources

/-!
# Compiling a directory

A command on a directory compiles every source below it once, in the order of a walk through sorted
directories. Where no output has the name of a source, each source fares as it would alone in the
tree as it was: what the command says, writes and counts is put together from that.
-/

namespace GridMarkup

/-! ## Walking through a tree -/

namespace FileTree

variable {t : FileTree} {a b key directory : Key} {entry : Entry} {content : ByteArray}

def IsFile (t : FileTree) (key : Key) : Prop := ∃ content, t.find? key = some (.file content)

/-- Each key is there once, and no file is a directory. -/
structure Proper (t : FileTree) : Prop where
  distinct : (t.entries.map Prod.fst).Nodup
  apart : ∀ key content, (key, .file content) ∈ t.entries → t.isDirectory key = false

/-- A walk through sorted directories comes to `a` before `b`: there is a directory where the ways
to them part, and the name on the way to `a` comes first there. -/
def WalkedBefore (a b : Key) : Prop :=
  ∃ directory m n below below', a = directory ++ m :: below ∧ b = directory ++ n :: below' ∧
    NameBefore m n

theorem Proper.find?_of_mem (ht : t.Proper) (h : (key, entry) ∈ t.entries) :
    t.find? key = some entry := by
  obtain ⟨before, after, hentries⟩ := List.append_of_mem h
  have hdistinct := ht.distinct
  rw [hentries, List.map_append, List.nodup_append] at hdistinct
  apply List.lookup_eq_some_iff.2
  refine ⟨before, after, hentries, ?_⟩
  intro e he
  rw [bne_iff_ne]
  intro heq
  exact hdistinct.2.2 e.1 (List.mem_map_of_mem he) key (by simp) heq.symm

theorem Proper.isDirectory_of_isFile (ht : t.Proper) (h : t.IsFile key) :
    t.isDirectory key = false := by
  obtain ⟨content, hfind⟩ := h
  exact ht.apart key content (mem_of_find? hfind)

theorem fileBelow?_eq_some_iff {e : Key × Entry} :
    fileBelow? directory e = some key ↔
      directory <+: key ∧ ∃ content, e = (key, .file content) := by
  obtain ⟨k, entry⟩ := e
  cases entry with
  | directory => simp [fileBelow?]
  | file content =>
    simp only [fileBelow?, List.isPrefixOf_iff_prefix, Option.ite_none_right_eq_some,
      Option.some.injEq, Prod.mk.injEq, Entry.file.injEq]
    constructor
    · rintro ⟨hpre, rfl⟩
      exact ⟨hpre, content, rfl, rfl⟩
    · rintro ⟨hpre, content, rfl, -⟩
      exact ⟨hpre, rfl⟩

theorem Proper.mem_filesBelow (ht : t.Proper) :
    key ∈ t.filesBelow directory ↔ directory <+: key ∧ t.IsFile key := by
  simp only [filesBelow, List.mem_mergeSort, List.mem_filterMap, fileBelow?_eq_some_iff]
  constructor
  · rintro ⟨e, he, hpre, content, rfl⟩
    exact ⟨hpre, content, ht.find?_of_mem he⟩
  · rintro ⟨hpre, content, hfind⟩
    exact ⟨_, mem_of_find? hfind, hpre, content, rfl⟩

/-- No file is visited twice. -/
theorem Proper.nodup_filesBelow (ht : t.Proper) (directory : Key) :
    (t.filesBelow directory).Nodup := by
  rw [filesBelow, (List.mergeSort_perm _ _).nodup_iff]
  refine List.Pairwise.filterMap _ ?_ (List.pairwise_map.1 ht.distinct)
  rintro e e' hne key hkey key' hkey' rfl
  obtain ⟨-, content, rfl⟩ := fileBelow?_eq_some_iff.1 hkey
  obtain ⟨-, content', rfl⟩ := fileBelow?_eq_some_iff.1 hkey'
  exact hne rfl

theorem KeyBefore.prefix_or_walkedBefore (h : KeyBefore a b) : a <+: b ∨ WalkedBefore a b := by
  unfold KeyBefore at h
  induction h with
  | nil => exact .inl List.nil_prefix
  | rel hnames => exact .inr ⟨[], _, _, _, _, rfl, rfl, hnames⟩
  | @cons name a b _ ih =>
    rcases ih with hpre | ⟨directory, m, n, below, below', rfl, rfl, hnames⟩
    · exact .inl ((List.prefix_cons_inj name).2 hpre)
    · exact .inr ⟨name :: directory, m, n, below, below', rfl, rfl, hnames⟩

/-- What has a file below it is a directory. -/
theorem isDirectory_of_prefix (h : t.IsFile b) (hpre : a <+: b) (hne : a ≠ b) :
    t.isDirectory a = true := by
  obtain ⟨content, hfind⟩ := h
  have hmakes : Entry.makesDirectory a (b, .file content) = true := by
    simp only [Entry.makesDirectory, Bool.and_eq_true, List.isPrefixOf_iff_prefix, bne_iff_ne]
    exact ⟨hpre, Ne.symm hne⟩
  unfold isDirectory
  rw [List.any_eq_true.2 ⟨_, mem_of_find? hfind, hmakes⟩, Bool.or_true]

theorem Proper.walked_filesBelow (ht : t.Proper) (directory : Key) :
    (t.filesBelow directory).Pairwise WalkedBefore := by
  have hsorted := (t.filesBelow_sorted directory).and (ht.nodup_filesBelow directory)
  refine hsorted.imp_of_mem ?_
  rintro a b ha hb ⟨hnot, hne⟩
  have hbefore : KeyBefore a b := by
    by_contra hcontra
    exact hne (Std.Trichotomous.trichotomous (r := List.Lex NameBefore) a b hcontra hnot)
  apply hbefore.prefix_or_walkedBefore.resolve_left
  intro hpre
  have hdirectory := isDirectory_of_prefix (ht.mem_filesBelow.1 hb).2 hpre hne
  rw [ht.isDirectory_of_isFile (ht.mem_filesBelow.1 ha).2] at hdirectory
  cases hdirectory

theorem readText_eq {t u : FileTree} (hfile : u.find? key = t.find? key)
    (hdirectory : u.isDirectory key = t.isDirectory key) : u.readText key = t.readText key := by
  unfold readText read
  rw [hfile, hdirectory]

end FileTree

namespace Command

open FileTree (Key)

variable {o : Options} {t u : FileTree} {key : Key} {keys : List Key}

/-! ## One source among others -/

/-- The sources, the directories and what is read-only are as they were. -/
structure Agrees (keys : List Key) (t u : FileTree) : Prop where
  sources : ∀ key ∈ keys, u.find? key = t.find? key
  directories : ∀ k, u.isDirectory k = t.isDirectory k
  readOnly : u.readOnly = t.readOnly

theorem Agrees.written? (h : Agrees keys t u) (hkey : key ∈ keys) :
    Command.written? o u key = Command.written? o t key :=
  written?_congr (h.sources key hkey) (h.directories _) h.readOnly

theorem Agrees.messages (h : Agrees keys t u) (hkey : key ∈ keys) (path : String) :
    (compileSource o u path key).1 = (compileSource o t path key).1 := by
  unfold compileSource FileTree.write
  rw [FileTree.readText_eq (h.sources key hkey) (h.directories key),
    FileTree.writeFault?_congr (h.directories (outputKey key)) h.readOnly]
  cases t.readText key with
  | error fault => rfl
  | ok source =>
    cases hresult : (compile o source).result with
    | error d => simp [hresult]
    | ok html =>
      cases t.writeFault? (outputKey key) <;> simp [hresult]

/-- Compiling a source changes no source, where its output is none. -/
theorem Agrees.compileOne (h : Agrees keys t u) (hkey : key ≠ []) (houtput : outputKey key ∉ keys) :
    Agrees keys t (Command.compileOne o u key) := by
  refine ⟨?_, ?_, (readOnly_compileOne o u key).trans h.readOnly⟩
  · intro source hsource
    have hne : source ≠ outputKey key := fun heq => houtput (heq ▸ hsource)
    rw [find?_compileOne, if_neg hne, h.sources source hsource]
  · intro k
    rw [isDirectory_compileOne o u hkey, h.directories]

/-! ## The tally -/

theorem next_eq (o : Options) (tally : Tally) (source : String × Key) :
    tally.next o source =
      { tree := compileOne o tally.tree source.2
        messages := tally.messages ++ (compileSource o tally.tree source.1 source.2).1
        done := tally.done + if (written? o tally.tree source.2).isSome then 1 else 0
        failed := tally.failed + if (written? o tally.tree source.2).isSome then 0 else 1 } := by
  have htree := compileSource_tree o tally.tree source.1 source.2
  unfold Tally.next compileOne
  cases hwritten : written? o tally.tree source.2 with
  | none =>
    rw [hwritten] at htree
    split
    · next hsource =>
      rw [hsource] at htree
      cases htree
    · next hsource => simp [hsource]
  | some html =>
    rw [hwritten] at htree
    split
    · next hsource =>
      rw [hsource] at htree
      cases htree
      simp [hsource]
    · next hsource =>
      rw [hsource] at htree
      cases htree

/-- A source is compiled if it is a text in UTF-8 and markup, and if its output can be written. -/
theorem written?_eq_some_iff {html : String} :
    written? o t key = some html ↔
      t.isDirectory (outputKey key) = false ∧ outputKey key ∉ t.readOnly ∧ ∃ content source,
        t.find? key = some (.file content) ∧ String.fromUTF8? content = some source ∧
          (compile o source).result = .ok html := by
  have hresult (source : String) : (compile o source).result.toOption = some html ↔
      (compile o source).result = .ok html := by
    cases (compile o source).result <;> simp [Except.toOption]
  have htext (source : String) : (t.readText key).toOption = some source ↔
      ∃ content, t.find? key = some (.file content) ∧ String.fromUTF8? content = some source := by
    unfold FileTree.readText FileTree.read
    cases hfind : t.find? key with
    | none => simp [bind, Except.bind, Except.toOption]
    | some entry =>
      cases entry with
      | directory => simp [bind, Except.bind, Except.toOption]
      | file content =>
        cases hdecoded : String.fromUTF8? content <;>
          simp [bind, Except.bind, FileTree.decodeText, hdecoded, Except.toOption]
  unfold written?
  rw [Option.ite_none_left_eq_some, Option.not_isSome_iff_eq_none,
    FileTree.writeFault?_eq_none_iff, Option.bind_eq_some_iff, and_assoc]
  simp only [hresult, htext]
  constructor
  · rintro ⟨hplace, hopen, source, ⟨content, hfind, hdecoded⟩, hhtml⟩
    exact ⟨hplace, hopen, content, source, hfind, hdecoded, hhtml⟩
  · rintro ⟨hplace, hopen, content, source, hfind, hdecoded, hhtml⟩
    exact ⟨hplace, hopen, source, ⟨content, hfind, hdecoded⟩, hhtml⟩

/-- What a tally has come to behind sources, told by the tree before the first of them. -/
structure Accounts (o : Options) (t : FileTree) (sources : List (String × Key))
    (before after : Tally) : Prop where
  messages : after.messages =
    before.messages ++ sources.flatMap fun source => (compileSource o t source.1 source.2).1
  done : after.done = before.done + sources.countP fun source => (written? o t source.2).isSome
  failed : after.failed =
    before.failed + sources.countP fun source => (written? o t source.2).isNone

theorem accounts_foldl (keys : List Key) (hne : ∀ key ∈ keys, key ≠ [])
    (houtputs : ∀ key ∈ keys, outputKey key ∉ keys) (sources : List (String × Key))
    (hsources : ∀ source ∈ sources, source.2 ∈ keys) (tally : Tally)
    (h : Agrees keys t tally.tree) :
    Accounts o t sources tally (sources.foldl (Tally.next o) tally) := by
  induction sources generalizing tally with
  | nil => exact ⟨by simp, by simp, by simp⟩
  | cons source sources ih =>
    obtain ⟨hsource, hrest⟩ := List.forall_mem_cons.1 hsources
    have hagrees : Agrees keys t (tally.next o source).tree := by
      rw [next_tree]
      exact h.compileOne (hne _ hsource) (houtputs _ hsource)
    have hafter := ih hrest (tally.next o source) hagrees
    have hnext := next_eq o tally source
    rw [h.written? hsource, h.messages hsource] at hnext
    rw [List.foldl_cons]
    refine ⟨?_, ?_, ?_⟩
    · rw [hafter.messages, hnext, List.flatMap_cons, List.append_assoc]
    · rw [hafter.done, hnext, List.countP_cons]
      dsimp only
      omega
    · rw [hafter.failed, hnext, List.countP_cons]
      cases written? o t source.2 with
      | none =>
        simp
        omega
      | some html => simp

/-! ## Directories -/

variable {path : String} {directory : Key}

/-- The sources below a directory that is named by a path. -/
theorem compiled_directory (hpath : Path.resolve t path = .ok directory)
    (hdirectory : t.isDirectory directory = true) :
    compiled t path =
      (t.filesBelow directory).filter fun key => isSource (key.getLast?.getD "") := by
  unfold compiled
  rw [hpath]
  dsimp only
  rw [if_pos hdirectory, sourcesBelow_keys]

theorem sourcesBelow_eq (hpath : Path.resolve t path = .ok directory)
    (hdirectory : t.isDirectory directory = true) :
    sourcesBelow t path directory =
      (compiled t path).map fun key => (Path.join path (key.drop directory.length), key) := by
  rw [compiled_directory hpath hdirectory]
  rfl

theorem compileNamed_directory (hpath : Path.resolve t path = .ok directory)
    (hdirectory : t.isDirectory directory = true) :
    compileNamed o t path = compileBelow o t path directory := by
  unfold compileNamed
  rw [hpath]
  dsimp only
  rw [if_pos hdirectory]

/-- No output has the name of a source, where no source's name has one more `.boot`. -/
theorem outputKey_not_mem (hsources : ∀ key ∈ keys, isSource (key.getLast?.getD "") = true)
    (hnames : ∀ key ∈ keys, ∀ stem ∈ sourceStem? (key.getLast?.getD ""),
      ¬ ".boot".toList <:+ stem.toList) : ∀ key ∈ keys, outputKey key ∉ keys := by
  intro key hkey houtput
  obtain ⟨directory, stem, hstem, rfl⟩ := isSource_iff.1 (hsources key hkey)
  obtain ⟨directory', stem', -, heq⟩ := isSource_iff.1 (hsources _ houtput)
  obtain ⟨rfl, rfl⟩ := (outputKey_eq_sourceKey_iff hstem).1 heq
  refine hnames _ hkey (stem' ++ ".boot") ?_ ⟨stem'.toList, String.toList_append.symm⟩
  rw [sourceKey, List.getLast?_concat, Option.getD_some]
  exact sourceStem?_eq_some_iff.2 ⟨hstem, rfl⟩

theorem Outputs.agrees {after : FileTree} (h : Outputs o keys t after)
    (houtputs : ∀ key ∈ keys, outputKey key ∉ keys) : Agrees keys t after := by
  refine ⟨?_, h.directories, h.readOnly⟩
  intro key hkey
  apply h.kept
  intro other hother heq
  exact absurd (heq ▸ hkey) (houtputs other hother)

/-- The tally behind the sources below a directory. -/
theorem accounts_below (hpath : Path.resolve t path = .ok directory)
    (hdirectory : t.isDirectory directory = true)
    (houtputs : ∀ key ∈ compiled t path, outputKey key ∉ compiled t path) :
    let sources := compiled t path
    let tally := (sourcesBelow t path directory).foldl (Tally.next o) { tree := t }
    (tally.messages = sources.flatMap fun key =>
        (compileSource o t (Path.join path (key.drop directory.length)) key).1) ∧
      tally.done = (sources.countP fun key => (written? o t key).isSome) ∧
      (tally.failed = 0 ↔ ∀ key ∈ sources, (written? o t key).isSome = true) ∧
      tally.done + tally.failed = sources.length := by
  intro sources tally
  have hne : ∀ key ∈ sources, key ≠ [] := by
    rintro key hkey rfl
    exact absurd (isSource_of_mem_compiled hkey) (by decide)
  have hbelow : sourcesBelow t path directory =
      sources.map fun key => (Path.join path (key.drop directory.length), key) :=
    sourcesBelow_eq hpath hdirectory
  obtain ⟨hmessages, hdone, hfailed⟩ := accounts_foldl (o := o) sources hne houtputs
    (sourcesBelow t path directory) (by simp [hbelow]) { tree := t }
    ⟨fun _ _ => rfl, fun _ => rfl, rfl⟩
  have hcount := foldl_next_count o (sourcesBelow t path directory) { tree := t }
  simp only [hbelow, List.flatMap_map, List.countP_map, List.length_map, List.nil_append,
    Nat.zero_add, Function.comp_def] at hmessages hdone hfailed hcount
  have hall : tally.failed = 0 ↔ ∀ key ∈ sources, (written? o t key).isSome = true := by
    simp only [tally, hbelow, hfailed, List.countP_eq_zero, Option.isNone_iff_eq_none,
      Option.isSome_iff_ne_none, ne_eq]
  rw [← hbelow] at hmessages hdone hcount
  exact ⟨hmessages, hdone, hall, hcount⟩

/-- A command on a directory without sources says so and fails. With sources, it says what compiling
each one says in the tree as it was, and then how many succeeded. It fails if one does. -/
theorem compileBelow_report (hpath : Path.resolve t path = .ok directory)
    (hdirectory : t.isDirectory directory = true)
    (houtputs : ∀ key ∈ compiled t path, outputKey key ∉ compiled t path) :
    let sources := compiled t path
    let report := compileBelow o t path directory
    report.messages =
        (if sources = [] then [.noSources path]
        else
          (sources.flatMap fun key =>
            (compileSource o t (Path.join path (key.drop directory.length)) key).1) ++
          [.summary (sources.countP fun key => (written? o t key).isSome)]) ∧
      (report.status = 0 ↔ sources ≠ [] ∧ ∀ key ∈ sources, (written? o t key).isSome = true) := by
  intro sources report
  obtain ⟨hmessages, hdone, hfailed, hcount⟩ := accounts_below (o := o) hpath hdirectory houtputs
  simp only [report, compileBelow]
  by_cases hnone : sources = []
  · have hlength : (compiled t path).length = 0 := List.length_eq_zero_iff.2 hnone
    rw [if_pos (by omega), if_pos hnone]
    exact ⟨rfl, iff_of_false Nat.one_ne_zero fun h => h.1 hnone⟩
  · have hpos : 0 < (compiled t path).length := List.length_pos_iff.2 hnone
    rw [if_neg (by omega), if_neg hnone, hmessages, hdone, ← hfailed]
    refine ⟨rfl, ?_⟩
    dsimp only
    split
    · next hzero => exact iff_of_true rfl ⟨hnone, hzero⟩
    · next hzero => exact iff_of_false Nat.one_ne_zero fun h => hzero h.2

/-- A command on a directory finds the sources below it and compiles each one once, in the order of
a walk. Each output is written by one source. What the command says and counts, and what it writes,
is what each source gives in the tree as it was: failing ones change nothing, and nothing else is
changed. The command succeeds if there are sources and all of them do. -/
theorem compile_directory (o : Options) (ht : t.Proper) (input : ByteArray) (path : String)
    (directory : Key) (hpath : Path.resolve t path = .ok directory)
    (hdirectory : t.isDirectory directory = true)
    (hnames : ∀ key, directory <+: key → t.IsFile key →
      ∀ stem ∈ sourceStem? (key.getLast?.getD ""), ¬ ".boot".toList <:+ stem.toList) :
    let sources := compiled t path
    let report := Job.run t input (.compile o (.path path))
    (∀ key, key ∈ sources ↔
        directory <+: key ∧ t.IsFile key ∧ isSource (key.getLast?.getD "") = true) ∧
      sources.Pairwise FileTree.WalkedBefore ∧
      (sources.map outputKey).Nodup ∧
      (∀ key html, written? o t key = some html ↔
        t.isDirectory (outputKey key) = false ∧ outputKey key ∉ t.readOnly ∧ ∃ content source,
          t.find? key = some (.file content) ∧ String.fromUTF8? content = some source ∧
            (compile o source).result = .ok html) ∧
      report.messages =
        (if sources = [] then [.noSources path]
        else
          (sources.flatMap fun key =>
            (compileSource o t (Path.join path (key.drop directory.length)) key).1) ++
          [.summary (sources.countP fun key => (written? o t key).isSome)]) ∧
      (report.status = 0 ↔ sources ≠ [] ∧ ∀ key ∈ sources, (written? o t key).isSome = true) ∧
      (∀ key ∈ sources, ∀ html, written? o t key = some html →
        report.tree.find? (outputKey key) = some (.file html.toUTF8)) ∧
      (∀ k, (∀ key ∈ sources, outputKey key = k → written? o t key = none) →
        report.tree.find? k = t.find? k) ∧
      (∀ k, report.tree.isDirectory k = t.isDirectory k) ∧
      report.tree.readOnly = t.readOnly := by
  intro sources report
  have hsources : sources = _ := compiled_directory hpath hdirectory
  have hmem (key : Key) : key ∈ sources ↔
      directory <+: key ∧ t.IsFile key ∧ isSource (key.getLast?.getD "") = true := by
    rw [hsources, List.mem_filter, ht.mem_filesBelow, and_assoc]
  have hsource : ∀ key ∈ sources, isSource (key.getLast?.getD "") = true :=
    fun key hkey => ((hmem key).1 hkey).2.2
  have houtputs : ∀ key ∈ sources, outputKey key ∉ sources := by
    refine outputKey_not_mem hsource ?_
    intro key hkey
    obtain ⟨hbelow, hfile, -⟩ := (hmem key).1 hkey
    exact hnames key hbelow hfile
  have hreport : report = compileBelow o t path directory := compileNamed_directory hpath hdirectory
  have hafter : Outputs o sources t report.tree := outputs_compileNamed o t path
  have hagrees : Agrees sources t report.tree := hafter.agrees houtputs
  obtain ⟨hmessages, hstatus⟩ := compileBelow_report (o := o) hpath hdirectory houtputs
  rw [← hreport] at hmessages hstatus
  refine ⟨hmem, ?_, ?_, fun key html => written?_eq_some_iff, hmessages, hstatus, ?_, ?_,
    hafter.directories, hafter.readOnly⟩
  · rw [hsources]
    exact (ht.walked_filesBelow directory).filter _
  · have hnodup : sources.Nodup := by
      rw [hsources]
      exact (ht.nodup_filesBelow directory).filter _
    refine List.pairwise_map.2 (hnodup.imp_of_mem ?_)
    intro a b ha hb hne heq
    exact hne (eq_of_outputKey_eq (hsource a ha) (hsource b hb) heq)
  · intro key hkey html hhtml
    apply hafter.written key hkey
    rw [hagrees.written? hkey, hhtml]
  · intro k hnone
    apply hafter.kept
    intro key hkey heq
    rw [hagrees.written? hkey, hnone key hkey heq]

/-- A source that can be compiled, beside one that is no text, one that is no markup, one whose
output is a directory and one whose output is read-only. -/
def site : FileTree where
  entries := [(["d", "a", "z.boot.html"], .file "<c6>x</c6>".toUTF8),
    (["d", "a", "z.html"], .file "old".toUTF8), (["d", "b.boot.html"], .file ⟨#[0xff]⟩),
    (["d", "b.html"], .file "older".toUTF8), (["d", "c.boot.html"], .file "<p".toUTF8),
    (["d", "e.boot.html"], .file "<r/>".toUTF8), (["d", "e.html"], .directory),
    (["d", "f.boot.html"], .file "<r/>".toUTF8), (["d", "f.html"], .file "oldest".toUTF8)]
  readOnly := [["d", "f.html"]]

theorem proper_site : site.Proper := by
  refine ⟨by decide +kernel, ?_⟩
  intro key content h
  have hall : ∀ e ∈ site.entries, e.1 = ["d", "e.html"] ∨ site.isDirectory e.1 = false := by
    decide +kernel
  refine (hall _ h).resolve_left ?_
  rintro rfl
  simp [site] at h

theorem compiled_site : compiled site "d" =
    [["d", "a", "z.boot.html"], ["d", "b.boot.html"], ["d", "c.boot.html"],
      ["d", "e.boot.html"], ["d", "f.boot.html"]] := by
  have hresolve : Path.resolve site "d" = .ok ["d"] := by decide +kernel
  have hfiles : site.filesBelow ["d"] =
      [["d", "a", "z.boot.html"], ["d", "a", "z.html"], ["d", "b.boot.html"], ["d", "b.html"],
        ["d", "c.boot.html"], ["d", "e.boot.html"], ["d", "f.boot.html"], ["d", "f.html"]] :=
    List.mergeSort_of_pairwise (by decide +kernel)
  rw [compiled_directory hresolve (by decide +kernel), hfiles]
  decide +kernel

/-- One of the five sources succeeds: its output takes the place of an older one, and those of the
failing sources stay. -/
theorem compile_directory_site :
    let report := Job.run site .empty (.compile {} (.path "d"))
    report.status ≠ 0 ∧ report.messages.getLast? = some (.summary 1) ∧
      report.tree.find? ["d", "a", "z.html"] =
        some (.file "<div class=\"col-md-6\">x</div>".toUTF8) ∧
      report.tree.find? ["d", "b.html"] = some (.file "older".toUTF8) ∧
      report.tree.find? ["d", "f.html"] = some (.file "oldest".toUTF8) := by
  intro report
  have hstems : ∀ e ∈ site.entries, ∀ stem ∈ sourceStem? (e.1.getLast?.getD ""),
      ¬ ".boot".toList <:+ stem.toList := by decide +kernel
  have hnames : ∀ key, ["d"] <+: key → site.IsFile key →
      ∀ stem ∈ sourceStem? (key.getLast?.getD ""), ¬ ".boot".toList <:+ stem.toList := by
    rintro key - ⟨content, hfind⟩
    exact hstems (key, .file content) (FileTree.mem_of_find? hfind)
  obtain ⟨-, -, -, -, hmessages, hstatus, hwritten, hkept, -⟩ :=
    compile_directory {} proper_site .empty "d" ["d"] (by decide +kernel) (by decide +kernel) hnames
  rw [compiled_site] at hmessages hstatus hwritten hkept
  refine ⟨?_, ?_, ?_, ?_, ?_⟩
  · intro hzero
    exact absurd (hstatus.1 hzero).2 (by decide +kernel)
  · rw [show report.messages = _ from hmessages, if_neg (by decide), List.getLast?_concat]
    decide +kernel
  · have houtput : outputKey ["d", "a", "z.boot.html"] = ["d", "a", "z.html"] := by decide +kernel
    rw [← houtput]
    exact hwritten _ List.mem_cons_self "<div class=\"col-md-6\">x</div>" (by decide +kernel)
  · have hfind : site.find? ["d", "b.html"] = some (.file "older".toUTF8) := by rfl
    rw [← hfind]
    exact hkept ["d", "b.html"] (by decide +kernel)
  · have hfind : site.find? ["d", "f.html"] = some (.file "oldest".toUTF8) := by rfl
    rw [← hfind]
    exact hkept ["d", "f.html"] (by decide +kernel)

end Command

end GridMarkup
