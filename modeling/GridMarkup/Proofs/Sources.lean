import GridMarkup.Command.Run
import GridMarkup.Proofs.Trees
import GridMarkup.Proofs.Walk

/-!
# Sources and their outputs

A command changes a tree at the outputs of the sources that it compiles and nowhere else. No two
sources have one output, but the output of one source may have the name of another.
-/

namespace GridMarkup.Command

open FileTree (Key)

/-- The key of a source, by the directory and the name without its ending. -/
def sourceKey (directory : Key) (stem : String) : Key := directory ++ [stem ++ sourceEnding]

/-- The sources that a command on a path compiles, in the order of compiling. -/
def compiled (t : FileTree) (path : String) : List Key :=
  match Path.resolve t path with
  | .error _ => []
  | .ok key =>
    if t.isDirectory key then (sourcesBelow t path key).map Prod.snd
    else if isSource (Path.name path) then [key] else []

/-- What the source at a key compiles to, in a tree where its output can be written. -/
def written? (o : Options) (t : FileTree) (key : Key) : Option String :=
  if (t.writeFault? (outputKey key)).isSome then none
  else (t.readText key).toOption.bind fun source => (compile o source).result.toOption

/-- The tree behind one more source. -/
def compileOne (o : Options) (t : FileTree) (key : Key) : FileTree :=
  match written? o t key with
  | none => t
  | some html => t.put (outputKey key) html

variable {o : Options} {t after : FileTree} {path stem name : String} {directory key : Key}
  {keys : List Key}

/-! ## Names -/

theorem sourceStem?_eq_some_iff :
    sourceStem? name = some stem ↔ stem ≠ "" ∧ name = stem ++ sourceEnding := by
  unfold sourceStem?
  constructor
  · intro h
    split at h
    · cases h
    · cases h
    · next rest hne hstrip =>
      cases h
      have hreverse := congrArg List.reverse (Text.strip?_eq_some_iff.1 hstrip)
      rw [List.reverse_append, List.reverse_reverse, List.reverse_reverse] at hreverse
      refine ⟨?_, ?_⟩
      · simpa using hne
      · rw [← String.toList_inj, hreverse, String.toList_append, String.toList_ofList]
  · rintro ⟨hstem, rfl⟩
    have hstrip : Text.strip? sourceEnding.toList.reverse (stem ++ sourceEnding).toList.reverse =
        some stem.toList.reverse := by
      rw [String.toList_append, List.reverse_append, Text.strip?_eq_some_iff]
    rw [hstrip]
    split
    · next h => cases h
    · next h => simp at h; exact absurd h hstem
    · next h =>
      cases h
      rw [List.reverse_reverse, String.ofList_toList]

theorem isSource_iff : isSource (key.getLast?.getD "") = true ↔
    ∃ directory stem, stem ≠ "" ∧ key = sourceKey directory stem := by
  unfold isSource sourceKey
  rw [Option.isSome_iff_exists]
  constructor
  · rintro ⟨stem, h⟩
    obtain ⟨hstem, hname⟩ := sourceStem?_eq_some_iff.1 h
    rcases List.eq_nil_or_concat key with rfl | ⟨directory, name, rfl⟩
    · have hempty : stem ++ sourceEnding = "" := hname.symm
      simp at hempty
      exact absurd hempty.1 hstem
    · rw [List.concat_eq_append, List.getLast?_concat, Option.getD_some] at hname
      exact ⟨directory, stem, hstem, by rw [List.concat_eq_append, hname]⟩
  · rintro ⟨directory, stem, hstem, rfl⟩
    refine ⟨stem, sourceStem?_eq_some_iff.2 ⟨hstem, by simp⟩⟩

theorem outputKey_sourceKey (directory : Key) (hstem : stem ≠ "") :
    outputKey (sourceKey directory stem) = directory ++ [stem ++ ".html"] := by
  unfold outputKey outputName sourceKey
  rw [List.dropLast_concat, List.getLast?_concat, Option.getD_some,
    sourceStem?_eq_some_iff.2 ⟨hstem, rfl⟩, Option.getD_some]

theorem sourceKey_inj {directory' : Key} {stem' : String} :
    sourceKey directory stem = sourceKey directory' stem' ↔ directory = directory' ∧ stem = stem' := by
  unfold sourceKey
  simp [String.append_left_inj]

/-- Two sources have two outputs. -/
theorem eq_of_outputKey_eq {a b : Key} (ha : isSource (a.getLast?.getD "") = true)
    (hb : isSource (b.getLast?.getD "") = true) (h : outputKey a = outputKey b) : a = b := by
  obtain ⟨directory, stem, hstem, rfl⟩ := isSource_iff.1 ha
  obtain ⟨directory', stem', hstem', rfl⟩ := isSource_iff.1 hb
  rw [outputKey_sourceKey _ hstem, outputKey_sourceKey _ hstem'] at h
  rw [sourceKey_inj]
  simpa using h

/-- A source has the output of another for its name where the other has one more `.boot`. -/
theorem outputKey_eq_sourceKey_iff {directory' : Key} {stem' : String} (hstem : stem ≠ "") :
    outputKey (sourceKey directory stem) = sourceKey directory' stem' ↔
      directory = directory' ∧ stem = stem' ++ ".boot" := by
  have hending : sourceEnding = ".boot" ++ ".html" := by decide
  rw [outputKey_sourceKey _ hstem, sourceKey, hending, ← String.append_assoc]
  simp

theorem outputKey_ne (hsource : isSource (key.getLast?.getD "") = true) : outputKey key ≠ key := by
  obtain ⟨directory, stem, hstem, rfl⟩ := isSource_iff.1 hsource
  rw [ne_eq, outputKey_eq_sourceKey_iff hstem]
  rintro ⟨-, h⟩
  have hlength := congrArg String.length h
  simp at hlength

theorem keyBefore_sourceKey (directory : Key) (stem : String) :
    FileTree.KeyBefore (sourceKey directory (stem ++ ".boot")) (sourceKey directory stem) := by
  apply FileTree.keyBefore_append
  have hlonger : (stem ++ ".boot" ++ sourceEnding).toList =
      stem.toList ++ (".boot.".toList ++ 'b' :: "oot.html".toList) := by
    rw [String.append_assoc, String.toList_append]
    rfl
  have hshorter : (stem ++ sourceEnding).toList =
      stem.toList ++ (".boot.".toList ++ 'h' :: "tml".toList) := by
    rw [String.toList_append]
    rfl
  have hb : FileTree.CharBefore 'b' 'h' := Nat.lt_of_sub_ne_zero (by decide)
  unfold FileTree.NameBefore
  rw [hlonger, hshorter]
  exact List.Lex.append_left _ (List.Lex.append_left _ (.rel hb) _) _

/-! ## One source -/

theorem compileSource_tree (o : Options) (t : FileTree) (path : String) (key : Key) :
    (compileSource o t path key).2 = (written? o t key).map (t.put (outputKey key)) := by
  unfold compileSource written? FileTree.write
  cases hread : t.readText key with
  | error fault => simp [Except.toOption]
  | ok source =>
    cases hresult : (compile o source).result with
    | error d => simp [hresult, Except.toOption]
    | ok html =>
      cases t.writeFault? (outputKey key) with
      | some fault => simp [hresult]
      | none => simp [hresult, Except.toOption, FileTree.put]

theorem compileOne_tree (o : Options) (t : FileTree) (path : String) (key : Key) :
    (compileSource o t path key).2.getD t = compileOne o t key := by
  rw [compileSource_tree]
  unfold compileOne
  cases written? o t key <;> rfl

theorem written?_congr (hfile : t.find? key = after.find? key)
    (hdirectory : t.isDirectory (outputKey key) = after.isDirectory (outputKey key))
    (hreadOnly : t.readOnly = after.readOnly) : written? o t key = written? o after key := by
  unfold written?
  rw [FileTree.writeFault?_congr hdirectory hreadOnly, FileTree.readText_congr hfile]

theorem readOnly_compileOne (o : Options) (t : FileTree) (key : Key) :
    (compileOne o t key).readOnly = t.readOnly := by
  unfold compileOne
  cases written? o t key <;> rfl

theorem find?_compileOne (o : Options) (t : FileTree) (key k : Key) :
    (compileOne o t key).find? k =
      if k = outputKey key then
        match written? o t key with
        | some html => some (.file html.toUTF8)
        | none => t.find? k
      else t.find? k := by
  unfold compileOne
  cases written? o t key with
  | none => simp
  | some html => exact FileTree.find?_put t (outputKey key) html k

/-- Only what is a file is compiled, and it is not written over a directory. -/
theorem file_of_written? {html : String} (h : written? o t key = some html) :
    t.isDirectory (outputKey key) = false ∧ ∃ content, t.find? key = some (.file content) := by
  unfold written? at h
  split at h
  · cases h
  · next hfault =>
    refine ⟨(FileTree.writeFault?_eq_none_iff.1 (by simpa using hfault)).1, ?_⟩
    obtain ⟨source, hsource, -⟩ := Option.bind_eq_some_iff.1 h
    unfold FileTree.readText FileTree.read at hsource
    split at hsource
    · next content hfind => exact ⟨content, hfind⟩
    · cases hsource

/-- An output beside its source makes no directory. -/
theorem isDirectory_compileOne (o : Options) (t : FileTree) (hkey : key ≠ []) (k : Key) :
    (compileOne o t key).isDirectory k = t.isDirectory k := by
  unfold compileOne
  cases hwritten : written? o t key with
  | none => rfl
  | some html =>
    obtain ⟨hdirectory, content, hfind⟩ := file_of_written? hwritten
    have hbeside : (outputKey key).dropLast = key.dropLast := List.dropLast_concat
    exact FileTree.isDirectory_put hdirectory
      ⟨_, FileTree.mem_of_find? hfind, hkey, hbeside.symm⟩ html k

/-! ## One source after the other -/

/-- The tree behind a list of sources: every output that can be written is there, and nothing else
is changed. What a source compiles to is judged by the tree behind all of them, since no source is
changed any more once it was compiled. -/
structure Outputs (o : Options) (keys : List Key) (t after : FileTree) : Prop where
  directories : ∀ k, after.isDirectory k = t.isDirectory k
  readOnly : after.readOnly = t.readOnly
  written : ∀ key ∈ keys, ∀ html, written? o after key = some html →
    after.find? (outputKey key) = some (.file html.toUTF8)
  kept : ∀ k, (∀ key ∈ keys, outputKey key = k → written? o after key = none) →
    after.find? k = t.find? k

/-- Each output is written by one source, and by none behind the source that it is the name of. -/
theorem outputs_compileOne (t : FileTree)
    (hsources : ∀ key ∈ keys, isSource (key.getLast?.getD "") = true)
    (hlater : keys.Pairwise fun a b => outputKey b ≠ a) :
    Outputs o keys t (keys.foldl (compileOne o) t) := by
  induction keys generalizing t with
  | nil => exact ⟨fun _ => rfl, rfl, by simp, fun _ _ => rfl⟩
  | cons key later ih =>
    obtain ⟨hkey, hpairwise⟩ := List.pairwise_cons.1 hlater
    obtain ⟨hsource, hsources'⟩ := List.forall_mem_cons.1 hsources
    have hrest := ih (compileOne o t key) hsources' hpairwise
    rw [List.foldl_cons]
    set after := later.foldl (compileOne o) (compileOne o t key) with hafter
    have hne : key ≠ [] := by
      rintro rfl
      exact absurd hsource (by decide)
    have hdirectories (k : Key) : after.isDirectory k = t.isDirectory k := by
      rw [hrest.directories, isDirectory_compileOne o t hne]
    have hreadOnly : after.readOnly = t.readOnly := by
      rw [hrest.readOnly, readOnly_compileOne]
    -- Neither the source itself nor a later one writes over the source.
    have hkept : after.find? key = t.find? key := by
      rw [hrest.kept key fun b hb heq => absurd heq (hkey b hb), find?_compileOne,
        if_neg (outputKey_ne hsource).symm]
    have hsame : written? o after key = written? o t key :=
      written?_congr hkept (hdirectories _) hreadOnly
    refine ⟨hdirectories, hreadOnly, ?_, ?_⟩
    · intro key' hkey' html hhtml
      rcases List.mem_cons.1 hkey' with rfl | hmem
      · by_cases hagain : ∃ b ∈ later, outputKey b = outputKey key'
        · obtain ⟨b, hb, heq⟩ := hagain
          obtain rfl := eq_of_outputKey_eq (hsources' b hb) hsource heq
          exact hrest.written b hb html hhtml
        · rw [hrest.kept _ fun b hb heq => absurd ⟨b, hb, heq⟩ hagain, find?_compileOne, if_pos rfl,
            ← hsame, hhtml]
      · exact hrest.written key' hmem html hhtml
    · intro k hnone
      rw [hrest.kept k fun b hb => hnone b (List.mem_cons_of_mem _ hb), find?_compileOne]
      split
      · next hk =>
        rw [← hsame, hnone key List.mem_cons_self hk.symm]
      · rfl

/-! ## Commands -/

theorem next_tree (o : Options) (tally : Tally) (source : String × Key) :
    (tally.next o source).tree = compileOne o tally.tree source.2 := by
  rw [← compileOne_tree o tally.tree source.1 source.2]
  unfold Tally.next
  split
  · next hsource => rw [hsource]; rfl
  · next hsource => rw [hsource]; rfl

theorem foldl_next_tree (o : Options) (sources : List (String × Key)) (tally : Tally) :
    (sources.foldl (Tally.next o) tally).tree =
      (sources.map Prod.snd).foldl (compileOne o) tally.tree := by
  induction sources generalizing tally with
  | nil => rfl
  | cons source sources ih => rw [List.foldl_cons, ih, next_tree, List.map_cons, List.foldl_cons]

/-- Every source is counted once. -/
theorem foldl_next_count (o : Options) (sources : List (String × Key)) (tally : Tally) :
    (sources.foldl (Tally.next o) tally).done + (sources.foldl (Tally.next o) tally).failed =
      tally.done + tally.failed + sources.length := by
  induction sources generalizing tally with
  | nil => rfl
  | cons source sources ih =>
    have hnext : (tally.next o source).done + (tally.next o source).failed =
        tally.done + tally.failed + 1 := by
      unfold Tally.next
      split <;> simp <;> omega
    rw [List.foldl_cons, ih, hnext, List.length_cons]
    omega

theorem compileBelow_tree (o : Options) (t : FileTree) (path : String) (directory : Key) :
    (compileBelow o t path directory).tree =
      ((sourcesBelow t path directory).map Prod.snd).foldl (compileOne o) t := by
  have hcount := foldl_next_count o (sourcesBelow t path directory) { tree := t }
  have htree := foldl_next_tree o (sourcesBelow t path directory) { tree := t }
  simp only [compileBelow]
  split
  · next hnone =>
    have hempty : sourcesBelow t path directory = [] := by
      apply List.eq_nil_of_length_eq_zero
      simp only [hnone] at hcount
      omega
    rw [hempty]
    rfl
  · exact htree

/-- A command on a path compiles its sources one after the other. -/
theorem compileNamed_tree (o : Options) (t : FileTree) (path : String) :
    (compileNamed o t path).tree = (compiled t path).foldl (compileOne o) t := by
  unfold compileNamed compiled
  cases hresolve : Path.resolve t path with
  | error fault => rfl
  | ok key =>
    by_cases hdirectory : t.isDirectory key = true
    · simp only [hdirectory, if_true]
      exact compileBelow_tree o t path key
    · by_cases hsource : isSource (Path.name path) = true
      · have hone := compileOne_tree o t path key
        simp only [hdirectory, hsource, if_false, if_true, Bool.not_true, Bool.false_eq_true,
          List.foldl_cons, List.foldl_nil]
        rw [← hone]
        split
        · next hsourceTree => rw [hsourceTree]; rfl
        · next hsourceTree => rw [hsourceTree]; rfl
      · simp [hdirectory, hsource]

theorem sourcesBelow_keys (t : FileTree) (path : String) (directory : Key) :
    (sourcesBelow t path directory).map Prod.snd =
      (t.filesBelow directory).filter fun key => isSource (key.getLast?.getD "") := by
  unfold sourcesBelow
  rw [List.map_map]
  exact List.map_id _

theorem isSource_of_mem_compiled (h : key ∈ compiled t path) :
    isSource (key.getLast?.getD "") = true := by
  unfold compiled at h
  split at h
  · cases h
  · next named hnamed =>
    split at h
    · rw [sourcesBelow_keys] at h
      exact (List.mem_filter.1 h).2
    · next hdirectory =>
      split at h
      · next hsource =>
        rw [List.mem_singleton.1 h, Path.name_of_resolve hnamed (by simpa using hdirectory)]
        exact hsource
      · cases h

/-- The longer name comes first in a walk, so no source is written over once it was compiled. -/
theorem compiled_pairwise (t : FileTree) (path : String) :
    (compiled t path).Pairwise fun a b => outputKey b ≠ a := by
  unfold compiled
  split
  · exact List.Pairwise.nil
  · next named hnamed =>
    split
    · rw [sourcesBelow_keys]
      refine ((t.filesBelow_sorted named).filter _).imp_of_mem ?_
      intro a b ha hb hsorted heq
      obtain ⟨directory, stem, -, rfl⟩ := isSource_iff.1 (List.mem_filter.1 ha).2
      obtain ⟨directory', stem', hstem', rfl⟩ := isSource_iff.1 (List.mem_filter.1 hb).2
      obtain ⟨rfl, rfl⟩ := (outputKey_eq_sourceKey_iff hstem').1 heq
      exact hsorted (keyBefore_sourceKey _ _)
    · split
      · exact List.pairwise_singleton _ _
      · exact List.Pairwise.nil

/-- What a command on a path leaves behind. -/
theorem outputs_compileNamed (o : Options) (t : FileTree) (path : String) :
    Outputs o (compiled t path) t (compileNamed o t path).tree := by
  rw [compileNamed_tree]
  exact outputs_compileOne t (fun key => isSource_of_mem_compiled) (compiled_pairwise t path)

/-! ## Sources that are written over -/

/-- Beside a source, one whose name has one more `.boot` is compiled to that markup. -/
def WrittenOver (o : Options) (t after : FileTree) (path : String) (directory : Key)
    (stem html : String) : Prop :=
  sourceKey directory (stem ++ ".boot") ∈ compiled t path ∧
    written? o after (sourceKey directory (stem ++ ".boot")) = some html

/-- A command keeps a source, unless it compiles one beside it whose name has one more `.boot`. That
one's output takes the place of the source. -/
theorem source_kept_iff (o : Options) (t : FileTree) (input : ByteArray) (path : String)
    (directory : Key) (stem : String) :
    let after := (Job.run t input (.compile o (.path path))).tree
    (after.find? (sourceKey directory stem) = t.find? (sourceKey directory stem) ↔
        ∀ html, WrittenOver o t after path directory stem html →
          t.find? (sourceKey directory stem) = some (.file html.toUTF8)) ∧
      ∀ html, WrittenOver o t after path directory stem html →
        after.find? (sourceKey directory stem) = some (.file html.toUTF8) := by
  intro after
  have houtputs : Outputs o (compiled t path) t after := outputs_compileNamed o t path
  have hother : outputKey (sourceKey directory (stem ++ ".boot")) = sourceKey directory stem :=
    (outputKey_eq_sourceKey_iff (by simp)).2 ⟨rfl, rfl⟩
  have hlost : ∀ html, WrittenOver o t after path directory stem html →
      after.find? (sourceKey directory stem) = some (.file html.toUTF8) := by
    rintro html ⟨hcompiled, hwritten⟩
    rw [← hother]
    exact houtputs.written _ hcompiled html hwritten
  refine ⟨⟨?_, ?_⟩, hlost⟩
  · intro hkept html hover
    rw [← hkept, hlost html hover]
  · intro hsame
    by_cases hover : ∃ html, WrittenOver o t after path directory stem html
    · obtain ⟨html, hover⟩ := hover
      rw [hlost html hover, hsame html hover]
    · apply houtputs.kept
      intro key hkey heq
      obtain ⟨directory', stem', hstem', rfl⟩ := isSource_iff.1 (isSource_of_mem_compiled hkey)
      obtain ⟨rfl, rfl⟩ := (outputKey_eq_sourceKey_iff hstem').1 heq
      rw [Option.eq_none_iff_forall_ne_some]
      intro html hhtml
      exact hover ⟨html, hkey, hhtml⟩

/-- Three sources with one more `.boot` each. -/
def chain : FileTree where
  entries := [(["d", "x.boot.boot.boot.html"], .file "<r/>".toUTF8),
    (["d", "x.boot.boot.html"], .file "<c>".toUTF8),
    (["d", "x.boot.html"], .file "last".toUTF8)]

theorem compiled_chain : compiled chain "d" =
    [["d", "x.boot.boot.boot.html"], ["d", "x.boot.boot.html"], ["d", "x.boot.html"]] := by
  have hfiles : chain.filesBelow ["d"] =
      [["d", "x.boot.boot.boot.html"], ["d", "x.boot.boot.html"], ["d", "x.boot.html"]] :=
    List.mergeSort_of_pairwise (by decide +kernel)
  have hresolve : Path.resolve chain "d" = .ok ["d"] := by decide +kernel
  have hdirectory : chain.isDirectory ["d"] = true := by decide +kernel
  unfold compiled
  rw [hresolve]
  simp only [hdirectory, if_true, sourcesBelow, hfiles]
  decide +kernel

/-- The second source is compiled as the output of the first left it, and written over the third. -/
theorem source_kept_iff_chain :
    (Job.run chain .empty (.compile { grid := false } (.path "d"))).tree.find?
      ["d", "x.boot.html"] = some (.file "<r />".toUTF8) := by
  have hafter : (Job.run chain .empty (.compile { grid := false } (.path "d"))).tree =
      (compiled chain "d").foldl (compileOne { grid := false }) chain :=
    compileNamed_tree { grid := false } chain "d"
  refine (source_kept_iff { grid := false } chain .empty "d" ["d"] "x").2 "<r />" ⟨?_, ?_⟩
  · rw [compiled_chain]
    decide +kernel
  · rw [hafter, compiled_chain]
    decide +kernel

/-- A source does not keep its content where the output of another has its name. -/
theorem source_written_over :
    isSource "x.boot.html" = true ∧
      (chain.readText ["d", "x.boot.html"]).toOption = some "last" ∧
      ((Job.run chain .empty (.compile {} (.path "d/x.boot.boot.html"))).tree.readText
        ["d", "x.boot.html"]).toOption = some "<div class=\"col-md-1\">" := by
  decide +kernel

end GridMarkup.Command
