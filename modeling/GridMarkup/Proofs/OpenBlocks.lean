import GridMarkup.Proofs.Blocks
import GridMarkup.Proofs.Buffers

/-!
# Open blocks

What an open block holds is told by the calls since its start tag. It collects the texts and
comments that come while no nested element is open. A nested element is open from its start tag to
the first end tag that closes it, or that closes an element around it. Until the block is closed
nothing is sent, and its end leaves no token and no nested element behind. Outside of blocks, a token
that opens none is passed on, unless it is a block that closes itself.
-/

namespace GridMarkup.Resource

open Element

variable {indent base name : String} {kind : Kind} {e : Buffers} {t : Token} {event : Event}
  {calls : List (String × Event)} {earlier : List Token} {names : List String} {i : Nat}

/-! ## What a call does -/

/-- The start tag of a block that closes itself. -/
def isEmptyBlock : Token → Bool
  | .startTag tag => tag.selfClosing && (Kind.ofTagName? tag.name).isSome
  | _ => false

def isCollected : Token → Bool
  | .text _ | .comment _ => true
  | _ => false

namespace Buffers

/-- The buffers of an open block behind a token that does not end it. -/
def take (e : Buffers) (t : Token) : Buffers :=
  { e with
    content := e.content ++ if e.nested.names.isEmpty && isCollected t then [t] else []
    nested := ⟨nestedAfter e.nested.names t⟩ }

/-- What a call can do. -/
inductive Moves (indent : String) (e : Buffers) : Event → Buffers × Reply → Prop
  | passes (t : Token) (hplace : e.place = .outside) :
    Moves indent e (.token t) (e, { tokens := if isEmptyBlock t then [] else [t] })
  | opens (tag : StartTag) (kind : Kind) (hplace : e.place = .outside)
    (hkind : Kind.ofTagName? tag.name = some kind) (hopens : tag.selfClosing = false) :
    Moves indent e (.token (.startTag tag)) ({ e with place := .inside kind indent }, {})
  | takes (t : Token) (kind : Kind) (base : String) (hplace : e.place = .inside kind base) :
    Moves indent e (.token t) (e.take t, {})
  | ends (event : Event) (reply : Reply) (hevent : ∀ t, event = .token t → e.place ≠ .outside) :
    Moves indent e event ({}, reply)

theorem moves_outside (hplace : e.place = .outside) (t : Token) :
    Moves indent e (.token t) (e.handle indent (.token t)) := by
  obtain ⟨place, content, nested⟩ := e
  obtain rfl : place = .outside := hplace
  cases t with
  | startTag tag =>
    cases hkind : Kind.ofTagName? tag.name with
    | none =>
      have hempty : isEmptyBlock (.startTag tag) = false := by simp [isEmptyBlock, hkind]
      have hpasses : Moves indent ⟨.outside, content, nested⟩ _ _ := .passes (.startTag tag) rfl
      simpa [handle, onStartTag, hkind, hempty] using hpasses
    | some kind =>
      cases hcloses : tag.selfClosing with
      | true =>
        have hempty : isEmptyBlock (.startTag tag) = true := by simp [isEmptyBlock, hkind, hcloses]
        have hpasses : Moves indent ⟨.outside, content, nested⟩ _ _ := .passes (.startTag tag) rfl
        simpa [handle, onStartTag, hkind, hcloses, hempty] using hpasses
      | false =>
        have hopens : Moves indent ⟨.outside, content, nested⟩ _ _ :=
          .opens tag kind rfl hkind hcloses
        simpa [handle, onStartTag, hkind, hcloses] using hopens
  | _ => exact .passes _ rfl

theorem take_startTag (e : Buffers) (tag : StartTag) :
    e.take (.startTag tag) =
      if opensElement tag then { e with nested := e.nested.push tag.name } else e := by
  have hcollected : isCollected (.startTag tag) = false := rfl
  rw [take, nestedAfter, hcollected, Bool.and_false, if_neg Bool.false_ne_true, List.append_nil]
  split <;> rfl

theorem take_endTag (e : Buffers) (name : String) :
    e.take (.endTag name) = { e with nested := e.nested.close name } := by
  rw [take, ← names_close]
  simp [isCollected]

theorem take_declaration (e : Buffers) (s : String) : e.take (.declaration s) = e := by
  have hnested : nestedAfter e.nested.names (.declaration s) = e.nested.names := rfl
  rw [take, hnested]
  simp [isCollected]

theorem take_collected (ht : isCollected t = true) (e : Buffers) :
    e.take t = if e.nested.isEmpty then { e with content := e.content ++ [t] } else e := by
  have hnested : nestedAfter e.nested.names t = e.nested.names := by
    cases t <;> first | rfl | cases ht
  rw [take, hnested, ht, Bool.and_true]
  unfold OpenElements.isEmpty
  split <;> simp

theorem moves_inside (hplace : e.place = .inside kind base) (t : Token) :
    Moves indent e (.token t) (e.handle indent (.token t)) := by
  have htakes (t : Token) : Moves indent e (.token t) (e.take t, {}) := .takes t kind base hplace
  obtain ⟨place, content, nested⟩ := e
  obtain rfl : place = .inside kind base := hplace
  cases t with
  | startTag tag =>
    have htake := htakes (.startTag tag)
    rwa [take_startTag] at htake
  | text s =>
    have htake := htakes (.text s)
    rwa [take_collected rfl] at htake
  | comment s =>
    have htake := htakes (.comment s)
    rwa [take_collected rfl] at htake
  | declaration s =>
    have htake := htakes (.declaration s)
    rwa [take_declaration] at htake
  | endTag name =>
    have htake := htakes (.endTag name)
    rw [take_endTag] at htake
    change Moves _ _ _ (if nested.contains name then _ else if _ then _ else _)
    split
    · exact htake
    · next hopen =>
      split
      · exact .ends _ _ (by simp)
      · rwa [OpenElements.close, if_neg hopen] at htake

theorem moves_handle (indent : String) (e : Buffers) (event : Event) :
    Moves indent e event (e.handle indent event) := by
  cases event with
  | finish => exact .ends .finish _ (by simp)
  | token t =>
    cases hplace : e.place with
    | outside => exact moves_outside hplace t
    | inside kind base => exact moves_inside hplace t

/-! ## The buffers -/

/-- Outside of blocks both buffers are empty, and what is collected are texts and comments. -/
structure Sound (e : Buffers) : Prop where
  empty : e.place = .outside → e.content = [] ∧ e.nested.names = []
  collected : ∀ t ∈ e.content, isCollected t = true

theorem Sound.handle (h : e.Sound) (indent : String) (event : Event) :
    (e.handle indent event).1.Sound := by
  have hmoves := moves_handle indent e event
  generalize e.handle indent event = answer at hmoves
  cases hmoves with
  | passes t hplace => exact h
  | opens tag kind hplace hkind hopens =>
    refine ⟨?_, h.collected⟩
    rintro ⟨⟩
  | takes t kind base hplace =>
    refine ⟨fun hout => ?_, ?_⟩
    · rw [take, hplace] at hout
      cases hout
    · refine List.forall_mem_append.2 ⟨h.collected, ?_⟩
      split
      · next ht => exact List.forall_mem_singleton.2 (Bool.and_eq_true_iff.1 ht).2
      · exact List.forall_mem_nil _
  | ends event reply hevent => exact ⟨fun _ => ⟨rfl, rfl⟩, List.forall_mem_nil _⟩

theorem sound_behind (calls : List (String × Event)) : (behind calls).Sound := by
  induction calls using List.reverseRecOn with
  | nil => exact ⟨fun _ => ⟨rfl, rfl⟩, List.forall_mem_nil _⟩
  | append_singleton calls call ih =>
    rw [behind_concat]
    exact ih.handle call.1 call.2

/-! ## What is sent -/

theorem tokens_of_inside (h : (e.handle indent event).1.place ≠ .outside) :
    (e.handle indent event).2.tokens = [] := by
  have hmoves := moves_handle indent e event
  generalize e.handle indent event = answer at h hmoves
  cases hmoves with
  | passes t hplace => exact absurd hplace h
  | opens tag kind hplace hkind hopens => rfl
  | takes t kind base hplace => rfl
  | ends event reply hevent => exact absurd rfl h

theorem tokens_of_outside (hbefore : e.place = .outside)
    (h : (e.handle indent (.token t)).1.place = .outside) :
    (e.handle indent (.token t)).2.tokens = if isEmptyBlock t then [] else [t] := by
  have hmoves := moves_handle indent e (.token t)
  generalize e.handle indent (.token t) = answer at h hmoves
  cases hmoves with
  | passes t hplace => rfl
  | opens tag kind hplace hkind hopens => cases h
  | takes t kind base hplace =>
    rw [hbefore] at hplace
    cases hplace
  | ends event reply hevent => exact absurd hbefore (hevent t rfl)

end Buffers

/-! ## Nested elements -/

/-- The element of a start tag is open behind tokens, the latest first. It is told by the number of
tokens before its start tag. An end tag closes the last element of its name that was opened, and
with it all that were opened later. -/
def IsOpen : List Token → Nat → String → Prop
  | [], _, _ => False
  | .startTag tag :: earlier, i, name =>
    IsOpen earlier i name ∨ opensElement tag = true ∧ i = earlier.length ∧ name = tag.name
  | .endTag n :: earlier, i, name =>
    IsOpen earlier i name ∧ ¬ ∃ m ≤ i, IsOpen earlier m n ∧ ∀ k, m < k → ¬ IsOpen earlier k n
  | _ :: earlier, i, name => IsOpen earlier i name

/-- The names are those of the open elements, the last one that was opened in front. -/
def OpenNames (earlier : List Token) (names : List String) : Prop :=
  ∃ opened : List (Nat × String), opened.Pairwise (fun x y => y.1 < x.1) ∧
    (∀ i name, (i, name) ∈ opened ↔ IsOpen earlier i name) ∧ opened.map Prod.snd = names

/-- The token at a place is the start tag of an element of that name. -/
def OpensAt (tokens : List Token) (i : Nat) (name : String) : Prop :=
  ∃ tag, tokens[i]? = some (.startTag tag) ∧ opensElement tag = true ∧ tag.name = name

theorem OpensAt.append {tokens : List Token} (h : OpensAt tokens i name) (more : List Token) :
    OpensAt (tokens ++ more) i name := by
  obtain ⟨tag, hget, htag⟩ := h
  refine ⟨tag, ?_, htag⟩
  rw [List.getElem?_append_left (List.getElem?_eq_some_iff.1 hget).1, hget]

theorem IsOpen.opensAt (h : IsOpen earlier i name) : OpensAt earlier.reverse i name := by
  induction earlier with
  | nil => exact h.elim
  | cons t earlier ih =>
    rw [List.reverse_cons]
    cases t with
    | startTag tag =>
      rcases h with h | ⟨hopens, rfl, rfl⟩
      · exact (ih h).append _
      · refine ⟨tag, ?_, hopens, rfl⟩
        rw [← List.length_reverse, List.getElem?_concat_length]
    | endTag n => exact (ih h.1).append _
    | _ => exact (ih h).append _

theorem IsOpen.lt_length (h : IsOpen earlier i name) : i < earlier.length := by
  obtain ⟨tag, hget, -⟩ := h.opensAt
  have hlt := (List.getElem?_eq_some_iff.1 hget).1
  rwa [List.length_reverse] at hlt

theorem nestedAfter_endTag {above below : List String} (h : name ∉ above) :
    nestedAfter (above ++ name :: below) (.endTag name) = below := by
  have habove : ∀ n ∈ above, (n != name) = true := by
    intro n hn
    exact bne_iff_ne.2 (ne_of_mem_of_not_mem hn h)
  rw [nestedAfter, if_pos (by simp), List.dropWhile_append_of_pos habove,
    List.dropWhile_cons_of_neg (by simp), List.tail_cons]

/-- An end tag leaves the elements that were opened before the last one of its name. -/
theorem OpenNames.endTag {above below : List String}
    (h : OpenNames earlier (above ++ name :: below)) (habove : name ∉ above) :
    OpenNames (.endTag name :: earlier) below := by
  obtain ⟨opened, hsorted, hopen, hnames⟩ := h
  obtain ⟨later, others, rfl, rfl, hothers⟩ := List.map_eq_append_iff.1 hnames
  obtain ⟨⟨last, n⟩, before, rfl, hn, rfl⟩ := List.map_eq_cons_iff.1 hothers
  obtain rfl : name = n := hn.symm
  obtain ⟨-, hothers, hlater⟩ := List.pairwise_append.1 hsorted
  obtain ⟨hbefore, hsorted⟩ := List.pairwise_cons.1 hothers
  -- `last` is the last element of the name that was opened: those in `later` have other names.
  have hlast : IsOpen earlier last name := (hopen last name).1 (by simp)
  have hnone (k : Nat) (hk : last < k) : ¬ IsOpen earlier k name := by
    intro hkopen
    rcases List.mem_append.1 ((hopen k name).2 hkopen) with h | h
    · exact habove (List.mem_map.2 ⟨_, h, rfl⟩)
    · rcases List.mem_cons.1 h with h | h
      · exact hk.ne' (congrArg Prod.fst h)
      · exact absurd (hbefore _ h) hk.not_gt
  refine ⟨before, hsorted, ?_, rfl⟩
  intro i n
  rw [IsOpen, ← hopen]
  constructor
  · intro hi
    refine ⟨by simp [hi], ?_⟩
    rintro ⟨m, hm, -, hmlast⟩
    exact hmlast last (hm.trans_lt (hbefore _ hi)) hlast
  · rintro ⟨hi, hnot⟩
    rcases List.mem_append.1 hi with h | h
    · have hle : last ≤ i := (hlater _ h _ List.mem_cons_self).le
      exact absurd ⟨last, hle, hlast, hnone⟩ hnot
    · rcases List.mem_cons.1 h with h | h
      · have hle : last ≤ i := (congrArg Prod.fst h).ge
        exact absurd ⟨last, hle, hlast, hnone⟩ hnot
      · exact h

theorem OpenNames.cons (h : OpenNames earlier names) (t : Token) :
    OpenNames (t :: earlier) (nestedAfter names t) := by
  cases t with
  | startTag tag =>
    obtain ⟨opened, hsorted, hopen, rfl⟩ := h
    rw [nestedAfter]
    split
    · next hopens =>
      refine ⟨(earlier.length, tag.name) :: opened, List.pairwise_cons.2 ⟨?_, hsorted⟩, ?_, rfl⟩
      · intro x hx
        exact ((hopen x.1 x.2).1 hx).lt_length
      · intro i name
        rw [List.mem_cons, hopen, Prod.mk.injEq, IsOpen]
        simp only [hopens, true_and]
        exact or_comm
    · next hopens =>
      refine ⟨opened, hsorted, ?_, rfl⟩
      intro i name
      rw [hopen, IsOpen, or_iff_left (fun hi => hopens hi.1)]
  | endTag name =>
    by_cases hmem : name ∈ names
    · obtain ⟨above, below, rfl, habove⟩ := List.eq_append_cons_of_mem hmem
      rw [nestedAfter_endTag habove]
      exact h.endTag habove
    · obtain ⟨opened, hsorted, hopen, rfl⟩ := h
      rw [nestedAfter, if_neg hmem]
      refine ⟨opened, hsorted, ?_, rfl⟩
      intro i n
      rw [hopen, IsOpen]
      refine ⟨fun hi => ⟨hi, ?_⟩, And.left⟩
      rintro ⟨m, -, hm, -⟩
      exact hmem (List.mem_map.2 ⟨(m, name), (hopen m name).2 hm, rfl⟩)
  | _ =>
    obtain ⟨opened, hsorted, hopen, hnames⟩ := h
    exact ⟨opened, hsorted, hopen, hnames⟩

/-! ## From the start tag on -/

namespace Buffers

/-- The texts and comments that come behind `calls` while no nested element is open. -/
def collected (calls : List (String × Event)) : List (String × Token) → List Token
  | [] => []
  | x :: later =>
    (if (behind calls).nested.names.isEmpty && isCollected x.2 then [x.2] else []) ++
      collected (calls ++ [call x]) later

/-- The buffers of a block that a start tag opened, and that is open behind every token since. -/
structure Since (e : Buffers) (kind : Kind) (base : String) (before : List (String × Event))
    (tag : StartTag) (since : List (String × Token)) : Prop where
  outside : (behind before).place = .outside
  opens : Kind.ofTagName? tag.name = some kind ∧ tag.selfClosing = false
  inside : ∀ earlier, earlier <+: since →
    (behind (before ++ call (base, .startTag tag) :: earlier.map call)).place = .inside kind base
  content : e.content = collected (before ++ [call (base, .startTag tag)]) since
  nested : OpenNames (since.map Prod.snd).reverse e.nested.names

variable {before : List (String × Event)} {tag : StartTag} {since : List (String × Token)}

theorem collected_concat (calls : List (String × Event)) (later : List (String × Token))
    (x : String × Token) :
    collected calls (later ++ [x]) = collected calls later ++
      if (behind (calls ++ later.map call)).nested.names.isEmpty && isCollected x.2 then [x.2]
      else [] := by
  induction later generalizing calls with
  | nil => simp [collected]
  | cons y later ih =>
    rw [List.cons_append, collected, ih, collected, List.map_cons, List.append_assoc,
      List.append_assoc, List.singleton_append]

/-- The start tag of a block opens it. The buffers are empty already. -/
theorem Since.start (hbefore : (behind before).place = .outside)
    (hkind : Kind.ofTagName? tag.name = some kind) (hopens : tag.selfClosing = false)
    (h : behind (before ++ [call (base, .startTag tag)]) =
      { behind before with place := .inside kind base }) :
    (behind (before ++ [call (base, .startTag tag)])).Since kind base before tag [] := by
  obtain ⟨hcontent, hnested⟩ := (sound_behind before).empty hbefore
  refine ⟨hbefore, ⟨hkind, hopens⟩, ?_, ?_, ?_⟩
  · intro earlier hearlier
    rw [List.prefix_nil.1 hearlier, List.map_nil, h]
  · rw [h]
    exact hcontent
  · rw [h]
    exact ⟨[], .nil, fun i name => iff_of_false List.not_mem_nil id, hnested.symm⟩

/-- A block that stays open takes one more token in. -/
theorem Since.concat {x : String × Token}
    (h : (behind (before ++ call (base, .startTag tag) :: since.map call)).Since
      kind base before tag since)
    (hnext : behind (before ++ call (base, .startTag tag) :: (since ++ [x]).map call) =
      (behind (before ++ call (base, .startTag tag) :: since.map call)).take x.2) :
    (behind (before ++ call (base, .startTag tag) :: (since ++ [x]).map call)).Since
      kind base before tag (since ++ [x]) := by
  have hplace := h.inside since List.prefix_rfl
  rw [hnext]
  refine ⟨h.outside, h.opens, ?_, ?_, ?_⟩
  · intro earlier hearlier
    rcases List.prefix_concat_iff.1 hearlier with rfl | hearlier
    · rw [hnext]
      exact hplace
    · exact h.inside earlier hearlier
  · rw [collected_concat, ← h.content, List.append_assoc, List.singleton_append]
    rfl
  · rw [List.map_append, List.reverse_append]
    exact h.nested.cons x.2

theorem since_behind (h : (behind calls).place = .inside kind base) :
    ∃ before tag since, calls = before ++ call (base, .startTag tag) :: since.map call ∧
      (behind calls).Since kind base before tag since := by
  induction calls using List.reverseRecOn with
  | nil => cases h
  | append_singleton calls last ih =>
    obtain ⟨indent, event⟩ := last
    have hlast := behind_concat calls (indent, event)
    have hmoves := moves_handle indent (behind calls) event
    dsimp only at hlast
    generalize (behind calls).handle indent event = answer at hlast hmoves
    -- The last call opened the block, or the block was open and took one more token in.
    cases hmoves with
    | passes t hplace =>
      rw [hlast, hplace] at h
      cases h
    | opens tag kind' hplace hkind hopens =>
      rw [hlast] at h
      obtain ⟨rfl, rfl⟩ := Place.inside.inj h
      exact ⟨calls, tag, [], rfl, .start hplace hkind hopens hlast⟩
    | takes t kind' base' hplace =>
      have hsame : (behind (calls ++ [(indent, .token t)])).place = (behind calls).place := by
        rw [hlast]
        rfl
      obtain ⟨before, tag, since, rfl, hsince⟩ := ih (hsame ▸ h)
      have hcalls : before ++ call (base, .startTag tag) :: since.map call ++
          [(indent, .token t)] =
          before ++ call (base, .startTag tag) :: (since ++ [(indent, t)]).map call := by
        simp [call]
      rw [hcalls] at hlast ⊢
      exact ⟨before, tag, since ++ [(indent, t)], rfl, hsince.concat hlast⟩
    | ends event reply hevent =>
      rw [hlast] at h
      cases h

end Buffers

/-- The stage holds what the buffers hold, and gives their answers. Outside of blocks both buffers
are empty. An open block goes back to its start tag, and since then it has collected the texts and
comments that came while no nested element was open, and it knows the nested elements that are open
by name. A call that leaves a block open sends nothing. A token that comes outside of blocks and
opens none is passed on, unless it is a block that closes itself. -/
theorem behind_block (calls : List (String × Event)) :
    let e := Buffers.behind calls
    (calls.foldl (fun s call => (s.handle call.1 call.2).1) (.resources none) =
        Stage.resources (behind calls) ∧
      e = .ofBlock (behind calls) ∧
      ∀ indent event,
        (e.handle indent event).2 = ((Stage.resources (behind calls)).handle indent event).2) ∧
      (e.place = .outside → e.content = [] ∧ e.nested.names = []) ∧
      (∀ t ∈ e.content, isCollected t = true) ∧
      (∀ kind base, e.place = .inside kind base →
        ∃ before tag since, calls = before ++ call (base, .startTag tag) :: since.map call ∧
          e.Since kind base before tag since) ∧
      ∀ indent event,
        let answer := e.handle indent event
        (answer.1.place ≠ .outside → answer.2.tokens = []) ∧
          ∀ t, event = .token t → e.place = .outside → answer.1.place = .outside →
            answer.2.tokens = if isEmptyBlock t then [] else [t] := by
  intro e
  obtain ⟨hempty, hcollected⟩ := Buffers.sound_behind calls
  refine ⟨⟨stage_behind calls, Buffers.behind_eq calls, ?_⟩, hempty, hcollected,
    fun kind base => Buffers.since_behind, ?_⟩
  · intro indent event
    dsimp only [e]
    rw [Buffers.behind_eq, Buffers.handle_ofBlock, Stage.handle_resources]
  · intro indent event
    refine ⟨Buffers.tokens_of_inside, ?_⟩
    rintro t rfl hbefore hafter
    exact Buffers.tokens_of_outside hbefore hafter

/-- A block that is never closed, and one with nested elements. -/
def blockCalls : List (String × Event) :=
  [("", .token (.startTag ⟨"css", [], false⟩)), ("", .token (.startTag ⟨"p", [], false⟩)),
    ("", .finish), ("  ", .token (.startTag ⟨"js", [], false⟩)), ("", .token (.text "a.js")),
    ("", .token (.startTag ⟨"p", [], false⟩)), ("", .token (.startTag ⟨"js", [], false⟩)),
    ("", .token (.text "b.js")), ("", .token (.endTag "p")), ("", .token (.comment "c")),
    ("", .token (.startTag ⟨"br", [], false⟩)), ("", .token (.startTag ⟨"b", [], false⟩)),
    ("", .token (.endTag "p"))]

theorem behind_block_scripts :
    let e : Buffers := ⟨.inside .scripts "  ", [.text "a.js", .comment "c"], ⟨["b"]⟩⟩
    Buffers.behind blockCalls = e ∧
      (∃ before tag since, blockCalls = before ++ call ("  ", .startTag tag) :: since.map call ∧
        e.Since .scripts "  " before tag since) ∧
      (e.handle "" (.token (.endTag "b"))).2.tokens = [] ∧
      (Buffers.behind (blockCalls.take 3)).place = .outside ∧
      (Buffers.behind (blockCalls.take 3)).content = [] ∧
      ((Buffers.behind (blockCalls.take 3)).handle "" (.token (.endTag "css"))).2.tokens =
        [.endTag "css"] ∧
      ((Buffers.behind (blockCalls.take 3)).handle ""
        (.token (.startTag ⟨"css", [], true⟩))).2.tokens = [] := by
  intro e
  have hinside : Buffers.behind blockCalls = e := by decide
  have houtside : (Buffers.behind (blockCalls.take 3)).place = .outside := by decide
  obtain ⟨-, -, -, hsince, hanswer⟩ := behind_block blockCalls
  obtain ⟨-, hempty, -, -, hpasses⟩ := behind_block (blockCalls.take 3)
  rw [hinside] at hsince hanswer
  refine ⟨hinside, hsince .scripts "  " rfl, (hanswer "" _).1 (by decide), houtside,
    (hempty houtside).1, ?_, ?_⟩
  · exact (hpasses "" _).2 _ rfl houtside (by decide)
  · exact (hpasses "" _).2 _ rfl houtside (by decide)

end GridMarkup.Resource
