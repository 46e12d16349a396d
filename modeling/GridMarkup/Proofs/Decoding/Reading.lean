import GridMarkup.Proofs.Scanned

/-!
# Reading with references decoded

A source is read as the same tokens whether references are decoded or not, but for the spelling of
its texts and values. Raw text is never decoded, and faults are the same. So decoding while reading
is reading and then decoding what is no raw text.
-/

namespace GridMarkup

open Text Scan Element

def Text.decodeString (s : String) : String := String.ofList (decode s.toList)

def Attribute.decoded (a : Attribute) : Attribute := { a with value := a.value.map decodeString }

def StartTag.decoded (tag : StartTag) : StartTag :=
  { tag with attributes := tag.attributes.map Attribute.decoded }

/-- A token with the references in its text and values decoded. -/
def Token.decoded : Token → Token
  | .startTag tag => .startTag tag.decoded
  | .text s => .text (decodeString s)
  | t => t

/-- A token with its references decoded, where the text of a raw text element stays as it is. -/
def Token.decodedIn (raw : Bool) : Token → Token
  | .text s => if raw then .text s else .text (decodeString s)
  | t => t.decoded

def Token.decodeFrom (raw : Bool) : List Token → List Token
  | [] => []
  | t :: tokens => t.decodedIn raw :: decodeFrom (t.rawAfter raw) tokens

/-- Tokens with the references decoded in all their values, and in their texts but for the raw
ones. -/
def Token.decodeAll (tokens : List Token) : List Token := decodeFrom false tokens

/-- The tokens of a source as they are spelled, and with references decoded. -/
inductive Respelled : List Token → List Token → Prop where
  | nil : Respelled [] []
  | cons (t : Token) {raw decoded : List Token} (h : Respelled raw decoded) :
      Respelled (t :: raw) (t.decoded :: decoded)
  | rawText {tag : StartTag} (s : String) {raw decoded : List Token}
      (hopens : opensRawText tag = true) (h : Respelled raw decoded) :
      Respelled (.startTag tag :: .text s :: raw) (.startTag tag.decoded :: .text s :: decoded)

variable {s rest : List Char} {raw decoded found tokens more : List Token} {kind : Construct}
  {tag : StartTag} {r : Bool}

namespace Scan

theorem readAttribute_decoded (tag : Opening) (c : Char) (s : List Char) :
    readAttribute true tag c s =
      (readAttribute false tag c s).map fun (a, rest) => (a.decoded, rest) := by
  simp only [readAttribute]
  cases strip? ['='] (trimStart (s.dropWhile isAttributeNameChar)) with
  | none => rfl
  | some rest =>
    simp only
    cases readValue (c :: s.takeWhile isAttributeNameChar) tag (trimStart rest) with
    | error fault => rfl
    | ok result => simp [Except.map, Attribute.decoded, spelled, decodeString]

theorem readAttributes_decoded (name : List Char) (tag : Opening) (s : List Char) :
    readAttributes true name tag s = (readAttributes false name tag s).map
      fun (attributes, closes, rest) => (attributes.map Attribute.decoded, closes, rest) := by
  fun_induction readAttributes false name tag s with
  | case1 s heq =>
    rw [readAttributes]
    split
    · rfl
    · next heq' => rw [heq] at heq'; cases heq'
  | case2 s t heq => exact readAttributes_close heq
  | case3 s t rest hstrip heq =>
    rw [strip?_eq_some_iff.1 hstrip] at heq
    exact readAttributes_selfClose heq
  | case4 s t hstrip heq _ ih => rw [readAttributes_slash heq hstrip, ih]
  | case5 s c t heq hend hslash fault ha =>
    rw [readAttributes_attribute heq hend hslash, readAttribute_decoded, ha]
    rfl
  | case6 s c t heq hend hslash a rest ha fault hmore ih =>
    rw [readAttributes_attribute heq hend hslash, readAttribute_decoded, ha]
    simp only [Except.map, Except.bind, ih, hmore]
  | case7 s c t heq hend hslash a rest ha more closes rest' hmore ih =>
    rw [readAttributes_attribute heq hend hslash, readAttribute_decoded, ha]
    simp only [Except.map, Except.bind, ih, hmore, List.map_cons]

theorem readStartTag_decoded (s : List Char) :
    readStartTag true s = (readStartTag false s).map fun (tag, rest) => (tag.decoded, rest) := by
  simp only [readStartTag, readAttributes_decoded]
  generalize readAttributes false _ _ _ = result
  rcases result with fault | ⟨attributes, closes, rest⟩ <;> rfl

end Scan

/-! ## Decoding what was read -/

theorem length_decodeFrom (r : Bool) (tokens : List Token) :
    (Token.decodeFrom r tokens).length = tokens.length := by
  induction tokens generalizing r with
  | nil => rfl
  | cons t tokens ih => exact congrArg (· + 1) (ih _)

theorem decodeFrom_append (r : Bool) (tokens more : List Token) :
    Token.decodeFrom r (tokens ++ more) =
      Token.decodeFrom r tokens ++ Token.decodeFrom (tokens.foldl Token.rawAfter r) more := by
  induction tokens generalizing r with
  | nil => rfl
  | cons t tokens ih => exact congrArg (t.decodedIn r :: ·) (ih _)

theorem decodeFrom_textTokens (s : List Char) :
    Token.decodeFrom false (textTokens false s) = textTokens true s := by
  rcases textTokens_false_cases s with ⟨rfl, htokens⟩ | ⟨u, hu, rfl, htokens⟩
  · rfl
  · simp [Token.decodeFrom, Token.decodedIn, textTokens, spelled, decodeString, hu]

theorem decodeFrom_rawText (hopens : opensRawText tag = true) (s : List Char) :
    Token.decodeFrom false (.startTag tag :: textTokens false s) =
      .startTag tag.decoded :: textTokens false s := by
  have hafter : (Token.startTag tag).rawAfter false = true := hopens
  rw [Token.decodeFrom, hafter]
  rcases textTokens_false_cases s with ⟨-, htokens⟩ | ⟨u, -, -, htokens⟩ <;> rw [htokens] <;> rfl

theorem foldl_rawAfter_textTokens (r : Bool) (s : List Char) :
    (textTokens false s).foldl Token.rawAfter r = r := by
  rcases textTokens_false_cases s with ⟨-, htokens⟩ | ⟨u, -, -, htokens⟩ <;> rw [htokens] <;> rfl

/-- A construct is read in both ways, and leaves the same rest. -/
theorem readConstruct_decoded (kind : Construct) (s : List Char) :
    readConstruct true kind s = (readConstruct false kind s).map
      fun (found, rest) => (Token.decodeFrom false found, rest) := by
  cases kind with
  | comment =>
    simp only [readConstruct, readComment]
    split <;> rfl
  | declaration =>
    simp only [readConstruct, readDeclaration]
    split <;> rfl
  | endTag =>
    simp only [readConstruct, readEndTag]
    split <;> rfl
  | startTag =>
    simp only [readConstruct, readStart, readStartTag_decoded]
    cases readStartTag false s with
    | error fault => rfl
    | ok result =>
      obtain ⟨tag, after⟩ := result
      have hsame : opensRawText tag.decoded = opensRawText tag := rfl
      simp only [Except.map, hsame]
      split
      · next hopens =>
        simp only [decodeFrom_rawText hopens]
        rfl
      · rfl

/-- Raw text ends with the construct that it was read with. -/
theorem decodeFrom_behind (hs : construct? s = some kind)
    (h : readConstruct false kind s = .ok (found, rest)) (hmore : scan false rest = .ok more) :
    Token.decodeFrom (found.foldl Token.rawAfter false) more = Token.decodeFrom false more := by
  rcases readConstruct_tokens hs h with
    ⟨t, rfl, -, hraw, -⟩ | ⟨tag, after, -, -, hopens, rfl, rfl⟩
  · rw [List.foldl_cons, hraw, List.foldl_nil]
  · rcases breakAt_rest (endsRawText tag.name.toList) after with hnil | hends
    · rw [← rawRun] at hnil
      rw [hnil, scan_nil] at hmore
      cases hmore
      rfl
    · obtain ⟨n, later, rfl, -⟩ :=
        scan_endsRawText (isRawText_of_opensRawText hopens) hends hmore
      rfl

/-- Reading with references decoded is reading and then decoding. -/
theorem scan_decoded (s : List Char) : scan true s = (scan false s).map Token.decodeAll := by
  fun_induction scan false s with
  | case1 s hk =>
    rw [scan_eq]
    simp only [hk]
    exact congrArg Except.ok (decodeFrom_textTokens _).symm
  | case2 s kind hk fault hr =>
    rw [scan_eq]
    simp only [hk, readConstruct_decoded, hr]
    rfl
  | case3 s kind hk found rest hr fault hmore ih =>
    rw [scan_eq]
    simp only [hk, readConstruct_decoded, hr, Except.map, Except.bind, ih, hmore]
  | case4 s kind hk found rest hr more hmore ih =>
    rw [scan_eq]
    simp only [hk, readConstruct_decoded, hr, Except.map, Except.bind, ih, hmore]
    refine congrArg Except.ok ?_
    rw [Token.decodeAll, Token.decodeAll, List.append_assoc, List.append_assoc,
      decodeFrom_append false (textTokens _ _), decodeFrom_textTokens, foldl_rawAfter_textTokens,
      decodeFrom_append, decodeFrom_behind hk hr hmore]

theorem Respelled.rawRun (hopens : opensRawText tag = true) (s : List Char)
    (h : Respelled raw decoded) :
    Respelled (.startTag tag :: Scan.textTokens false s ++ raw)
      (.startTag tag.decoded :: Scan.textTokens false s ++ decoded) := by
  rcases textTokens_false_cases s with ⟨-, htokens⟩ | ⟨u, -, -, htokens⟩
  · rw [htokens]
    exact .cons (.startTag tag) h
  · rw [htokens]
    exact .rawText u hopens h

/-- The tokens of a source differ from the decoded ones in their spelling. -/
theorem respelled_decodeAll {unclosed : Bool} (h : RawFramed unclosed tokens) :
    Respelled tokens (Token.decodeAll tokens) := by
  induction h with
  | nil => exact .nil
  | @cons t tokens hraw _ ih =>
    have hfirst : t.decodedIn false = t.decoded := by cases t <;> rfl
    rw [Token.decodeAll, Token.decodeFrom, hraw, hfirst]
    exact .cons t ih
  | @element tag text name tokens hopens _ _ _ ih =>
    -- The end tag is decoded in the same way wherever it stands.
    rw [Token.decodeAll, ← List.cons_append, decodeFrom_append, decodeFrom_rawText hopens]
    exact ih.rawRun hopens text
  | @last tag text _ hopens _ =>
    rw [List.append_nil, Token.decodeAll, decodeFrom_rawText hopens]
    have hnil := Respelled.nil.rawRun hopens text
    rwa [List.append_nil, List.append_nil] at hnil

/-! ## Sources -/

/-- A source as it is read in both ways: as tokens that differ in spelling, or with one fault. -/
inductive ReadTwice : Except Fault (List Token) → Except Fault (List Token) → Prop where
  | ok {raw decoded : List Token} (h : Respelled raw decoded) : ReadTwice (.ok raw) (.ok decoded)
  | error (fault : Fault) : ReadTwice (.error fault) (.error fault)

theorem readTwice_scan (s : List Char) : ReadTwice (scan false s) (scan true s) := by
  rw [scan_decoded]
  cases h : scan false s with
  | error fault => exact .error fault
  | ok tokens => exact .ok (respelled_decodeAll (framed_scan h).1.rawFramed)

theorem Spaced.not_empty (h : Spaced tokens) : .text "" ∉ tokens := by
  induction tokens with
  | nil => simp
  | cons t tokens ih =>
    rw [List.mem_cons, not_or]
    refine ⟨?_, ih h.tail⟩
    rintro rfl
    exact h.1 rfl

/-- A source is read with its references decoded as it is read without, or fails with the same
diagnostic. The tokens are as many and the same but for the references in values and in texts that
are not raw, and no text becomes empty. -/
theorem readTokens_decoded (source : String) :
    readTokens true source = (readTokens false source).map Token.decodeAll ∧
      ∀ tokens, readTokens false source = .ok tokens →
        (Token.decodeAll tokens).length = tokens.length ∧ .text "" ∉ Token.decodeAll tokens := by
  have hsame : readTokens true source = (readTokens false source).map Token.decodeAll := by
    rw [readTokens, readTokens, scan_decoded]
    cases scan false source.toList <;> rfl
  refine ⟨hsame, fun tokens htokens => ⟨length_decodeFrom false tokens, ?_⟩⟩
  rw [htokens] at hsame
  exact (framed_scan (readTokens_eq_ok_iff.1 hsame)).1.spaced.not_empty

/-- References in a value, in a text, in raw text and behind it. -/
theorem readTokens_decoded_page :
    readTokens true "<a b='&lt;' c>&#65;&am<script>&lt;</Script>&gt;<!--&lt;-->" =
        .ok [.startTag ⟨"a", [⟨"b", some "<"⟩, ⟨"c", none⟩], false⟩, .text "A&am",
          .startTag ⟨"script", [], false⟩, .text "&lt;", .endTag "Script", .text ">",
          .comment "&lt;"] ∧
      .text "" ∉ Token.decodeAll [.startTag ⟨"a", [⟨"b", some "&lt;"⟩, ⟨"c", none⟩], false⟩,
        .text "&#65;&am", .startTag ⟨"script", [], false⟩, .text "&lt;", .endTag "Script",
        .text "&gt;", .comment "&lt;"] := by
  obtain ⟨hsame, hall⟩ :=
    readTokens_decoded "<a b='&lt;' c>&#65;&am<script>&lt;</Script>&gt;<!--&lt;-->"
  have hraw : readTokens false "<a b='&lt;' c>&#65;&am<script>&lt;</Script>&gt;<!--&lt;-->" =
      .ok [.startTag ⟨"a", [⟨"b", some "&lt;"⟩, ⟨"c", none⟩], false⟩, .text "&#65;&am",
        .startTag ⟨"script", [], false⟩, .text "&lt;", .endTag "Script", .text "&gt;",
        .comment "&lt;"] := by decide +kernel
  rw [hraw] at hsame
  refine ⟨hsame.trans ?_, (hall _ hraw).2⟩
  decide +kernel

end GridMarkup
