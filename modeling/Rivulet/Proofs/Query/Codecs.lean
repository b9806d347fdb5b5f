import Rivulet.Proofs.Json.RoundTrip
import Rivulet.Proofs.MessagePack.RoundTrip
import Rivulet.Query.Payload

/-!
# Payloads come back

A payload travels as text, as bytes, or as a script of a page, and arrives as it was sent.

An entry is read from the text of its object, also when the strings in the text have been spelled
anew, and a payload entry by entry. A script holds the payload in such a spelling, and its
brackets are found again: nothing in front of them opens a list and nothing behind them closes one.

Whatever way a payload travels, it arrives as it was sent: as text, as bytes, and as a script of
which the whole element or only the body is kept. The text may be nested as deep as a reader of
text goes, and the bytes as deep as a reader of bytes goes.
-/

namespace Rivulet.Query

variable {f : List Char → List Char}

/-- An entry that a text can carry: its value has no fractions and is canonical. -/
structure Entry.Plain (e : Entry) : Prop where
  /-- All numbers are whole. -/
  whole : e.value.isWhole
  /-- Numbers are in range and fields in order. -/
  canonical : e.value.Canonical

theorem Entry.Plain.isWhole_json {e : Entry} (h : e.Plain) : e.json.isWhole := by
  simp [json, Json.isWhole, Json.isWholeFields, h.whole]

/-- An entry is read from what is written for it, within the depth of its value. -/
theorem Entry.ofRaw?_raw (hf : Json.Respells f) {e : Entry} (h : e.Plain) {depth : Nat}
    (hdepth : e.value.depth ≤ depth) : ofRaw? depth (e.json.raw f) = some e := by
  have hkey := Json.pieceText?_spelled hf "key"
  have hname := Json.pieceText?_spelled hf "value"
  simp [ofRaw?, json, Json.raw, Json.rawFields, hkey, hname, single?, rawText?,
    Json.pieceText?_spelled hf, Json.value?_raw hf h.whole h.canonical hdepth]

/-- An entry that stands alone comes back from its text. -/
theorem Entry.parse?_print {e : Entry} (h : e.Plain) (hdepth : e.value.depth ≤ 126) :
    parse? e.json.print = some e := by
  have hread := Json.read?_print Json.respells_id h.isWhole_json
  rw [id] at hread
  rw [parse?, hread, Option.bind_some, ofRaw?_raw Json.respells_id h hdepth]

namespace Payload

/-- What is written for a list of entries is read entry by entry. -/
theorem mapM_ofRaw? (hf : Json.Respells f) {entries : List Entry}
    (h : ∀ e ∈ entries, e.Plain ∧ e.value.depth ≤ 125) :
    (Json.rawItems f (entries.map Entry.json)).mapM (Entry.ofRaw? 125) = some entries := by
  induction entries with
  | nil => rfl
  | cons e entries ih =>
    obtain ⟨hplain, hdepth⟩ := h e List.mem_cons_self
    have hrest := ih fun d hd => h d (List.mem_cons_of_mem _ hd)
    simp [Json.rawItems, Entry.ofRaw?_raw hf hplain hdepth, hrest]

theorem isWhole_json {p : Payload} (h : ∀ e ∈ p.entries, e.Plain) : p.json.isWhole := by
  obtain ⟨entries⟩ := p
  rw [json, Json.isWhole]
  induction entries with
  | nil => rfl
  | cons e entries ih =>
    have hrest := ih fun d hd => h d (List.mem_cons_of_mem _ hd)
    simp [Json.isWholeItems, (h e List.mem_cons_self).isWhole_json, hrest]

/-- A payload comes back from its text, also when the strings in it have been spelled anew. -/
theorem parse_respelled (hf : Json.Respells f) {p : Payload}
    (h : ∀ e ∈ p.entries, e.Plain ∧ e.value.depth ≤ 125) : parse (f p.print) = .ok p := by
  have hread := Json.read?_print hf (isWhole_json fun e he => (h e he).1)
  rw [parse, parse?, print, hread]
  simp [json, Json.raw, mapM_ofRaw? hf h]

/-- An entry that was read has a canonical value, nested no deeper than a value is read. -/
theorem canonical_of_ofRaw? {depth : Nat} {raw : Json.Raw} {e : Entry}
    (h : Entry.ofRaw? depth raw = some e) : e.value.Canonical ∧ e.value.depth ≤ depth := by
  have hvalue {key value : Json.Raw} (hread : ((Entry.rawText? key).bind fun k =>
      (value.value? depth).bind fun v => some (Entry.mk k v)) = some e) :
      e.value.Canonical ∧ e.value.depth ≤ depth := by
    obtain ⟨name, -, hread⟩ := Option.bind_eq_some_iff.1 hread
    obtain ⟨v, hv, he⟩ := Option.bind_eq_some_iff.1 hread
    obtain rfl := Option.some.inj he
    exact Json.canonical_of_value? hv
  unfold Entry.ofRaw? at h
  split at h
  · obtain ⟨fields, -, h⟩ := Option.bind_eq_some_iff.1 h
    obtain ⟨key, -, h⟩ := Option.bind_eq_some_iff.1 h
    obtain ⟨value, -, h⟩ := Option.bind_eq_some_iff.1 h
    exact hvalue h
  · exact hvalue h
  · cases h

/-- So are the values of all entries of a list that was read. -/
theorem canonical_of_mapM_ofRaw? {depth : Nat} {items : List Json.Raw} {entries : List Entry}
    (h : items.mapM (Entry.ofRaw? depth) = some entries) :
    ∀ e ∈ entries, e.value.Canonical ∧ e.value.depth ≤ depth := by
  induction items generalizing entries with
  | nil =>
    obtain rfl := Option.some.inj (by simpa using h)
    simp
  | cons item items ih =>
    simp only [List.mapM_cons, Option.bind_eq_bind, Option.bind_eq_some_iff] at h
    obtain ⟨e, he, rest, hrest, heq⟩ := h
    obtain rfl := Option.some.inj heq
    exact List.forall_mem_cons.2 ⟨canonical_of_ofRaw? he, ih hrest⟩

/-- A payload that was read and has whole numbers only comes back when it is written again. -/
theorem parse_print_of_parse {text : List Char} {p : Payload} (h : parse text = .ok p)
    (hwhole : ∀ e ∈ p.entries, e.value.isWhole) : parse p.print = .ok p := by
  have hread : parse? text = some p := by
    unfold parse at h
    split at h
    · rename_i q hq
      obtain rfl := Except.ok.inj h
      exact hq
    · cases h
  simp only [parse?, Option.bind_eq_bind, Option.bind_eq_some_iff] at hread
  obtain ⟨raw, -, hraw⟩ := hread
  split at hraw
  · rename_i items
    obtain ⟨entries, hentries, hp⟩ := Option.bind_eq_some_iff.1 hraw
    obtain rfl := Option.some.inj hp
    refine parse_respelled Json.respells_id fun e he => ?_
    obtain ⟨hcanonical, hdepth⟩ := canonical_of_mapM_ofRaw? hentries e he
    exact ⟨⟨hwhole e he, hcanonical⟩, hdepth⟩
  · cases hraw

/-- What is written so that no script ends is a spelling of the same text. -/
theorem respells_inert : Json.Respells inert := by
  have hslash : Json.Respells (Text.replaceAll "</".toList "<\\/".toList) := by
    have hsame (t s : List Char) (h : Json.Spells (['/'] ++ t) s) :
        Json.Spells (['\\', '/'] ++ t) s := by
      cases h with
      | plain _ _ _ _ h => exact .short rfl h
    exact Json.respells_replaceAll (by decide) (by decide) (by decide) hsame
  have hcomment : Json.Respells (Text.replaceAll "<!--".toList "<\\u0021--".toList) := by
    have hsame (t s : List Char) (h : Json.Spells (['!', '-', '-'] ++ t) s) :
        Json.Spells (['\\', 'u', '0', '0', '2', '1', '-', '-'] ++ t) s := by
      cases h with
      | plain _ _ _ _ h => exact .unit (n := 0x21) rfl (by decide) h
    exact Json.respells_replaceAll (by decide) (by decide) (by decide) hsame
  exact hcomment.comp hslash

/-- The closing bracket of a list stays where it is. -/
theorem inert_append_bracket (s : List Char) : inert (s ++ [']']) = inert s ++ [']'] := by
  have hslash : Text.replaceAll "</".toList "<\\/".toList (s ++ [']']) =
      Text.replaceAll "</".toList "<\\/".toList s ++ [']'] :=
    Text.replaceAll_append_cons (by decide) s []
  have hcomment (t : List Char) :
      Text.replaceAll "<!--".toList "<\\u0021--".toList (t ++ [']']) =
        Text.replaceAll "<!--".toList "<\\u0021--".toList t ++ [']'] :=
    Text.replaceAll_append_cons (by decide) t []
  exact (congrArg _ hslash).trans (hcomment _)

/-- The text of a list is closed by a bracket. -/
theorem exists_printItems_eq (vs : List Json) : ∃ s, Json.printItems vs = s ++ [']'] := by
  induction vs with
  | nil => exact ⟨[], rfl⟩
  | cons v vs ih =>
    obtain ⟨s, hs⟩ := ih
    cases vs with
    | nil => exact ⟨v.print, by simp [Json.printItems, Json.printMoreItems]⟩
    | cons w ws =>
      refine ⟨v.print ++ ',' :: s, ?_⟩
      rw [Json.printItems, Json.printMoreItems_cons, hs]
      simp

/-- The text of a payload stands between brackets, also when nothing in it ends a script. -/
theorem exists_inert_print_eq (p : Payload) : ∃ s, inert p.print = '[' :: s ++ [']'] := by
  obtain ⟨s, hs⟩ := exists_printItems_eq (p.entries.map Entry.json)
  refine ⟨inert s, ?_⟩
  rw [print, json, Json.print, hs, respells_inert.cons _ (by decide), inert_append_bracket,
    List.cons_append]

/-- A payload is found between texts that neither open nor close a list. -/
theorem ofScript_around {p : Payload} (h : ∀ e ∈ p.entries, e.Plain ∧ e.value.depth ≤ 125)
    {front back : List Char} (hfront : '[' ∉ front) (hback : ']' ∉ back) :
    ofScript (front ++ inert p.print ++ back) = .ok p := by
  obtain ⟨s, hs⟩ := exists_inert_print_eq p
  have hparse := parse_respelled respells_inert h
  rw [hs] at hparse ⊢
  have hopen : (front ++ ('[' :: s ++ [']']) ++ back).dropWhile (· ≠ '[') =
      '[' :: s ++ [']'] ++ back := by
    rw [List.append_assoc, List.dropWhile_append_of_pos]
    · rfl
    · intro c hc
      simpa using fun he : c = '[' => hfront (he ▸ hc)
  have hclose : ('[' :: s ++ [']'] ++ back).reverse.dropWhile (· ≠ ']') =
      ('[' :: s ++ [']']).reverse := by
    rw [List.reverse_append, List.dropWhile_append_of_pos]
    · simp
    · intro c hc
      simpa using fun he : c = ']' => hback (List.mem_reverse.1 (he ▸ hc))
  rw [ofScript, hopen]
  simp only [List.cons_append] at hclose hparse ⊢
  rw [hclose]
  simp [hparse]

/-- A name holds no character that can neither start it nor is a digit. -/
theorem notMem_of_isVariable {name : List Char} (h : isVariable name) {c : Char}
    (hstart : startsName c = false) (hdigit : c.isDigit = false) : c ∉ name := by
  intro hmem
  cases name with
  | nil => cases hmem
  | cons d rest =>
    simp only [isVariable, Bool.and_eq_true, List.all_eq_true, Bool.or_eq_true] at h
    rcases List.mem_cons.1 hmem with rfl | hmem
    · simp [hstart] at h
    · have hrest := h.2 c hmem
      simp [hstart, hdigit] at hrest

end Payload

end Rivulet.Query

namespace Rivulet.Query

/-- The packed names of an entry are told apart. -/
theorem Entry.fieldOf?_ofString {name : String} (h : name = "key" ∨ name = "value") :
    fieldOf? (.ofString name) = some name := by
  have hne : "value".toUTF8.toList ≠ "key".toUTF8.toList := fun he => by
    have htext := congrArg MessagePack.utf8? he
    rw [MessagePack.utf8?_toUTF8, MessagePack.utf8?_toUTF8] at htext
    exact absurd htext (by decide)
  rcases h with rfl | rfl
  · rw [MessagePack.Packed.ofString, fieldOf?, if_pos rfl]
  · rw [MessagePack.Packed.ofString, fieldOf?, if_neg hne, if_pos rfl]

/-- An entry comes back from its packed form. -/
theorem Entry.ofPacked?_ofJson {e : Entry} (h : e.Plain) :
    ofPacked? (MessagePack.Packed.ofJson e.json) = some e := by
  have htext : packedText? (.ofString e.key) = some e.key := MessagePack.utf8?_toUTF8 e.key
  simp [ofPacked?, json, MessagePack.Packed.ofJson, MessagePack.Packed.ofFields,
    fieldOf?_ofString, single?, htext, MessagePack.json?_ofJson h.whole h.canonical]

private theorem Entry.Plain.canonical_json {e : Entry} (h : e.Plain) : e.json.Canonical := by
  refine ⟨?_, trivial, h.canonical, trivial⟩
  simp only [Json.Sorted, List.pairwise_cons, List.mem_singleton, forall_eq]
  exact ⟨by decide, by simp⟩

namespace Payload

/-- What is packed for a list of entries is read entry by entry. -/
theorem mapM_ofPacked? {entries : List Entry} (h : ∀ e ∈ entries, e.Plain) :
    (MessagePack.Packed.ofItems (entries.map Entry.json)).mapM Entry.ofPacked? =
      some entries := by
  induction entries with
  | nil => rfl
  | cons e entries ih =>
    have hfirst := Entry.ofPacked?_ofJson (h e List.mem_cons_self)
    have hrest := ih fun d hd => h d (List.mem_cons_of_mem _ hd)
    simp [MessagePack.Packed.ofItems, hfirst, hrest]

theorem canonical_json {p : Payload} (h : ∀ e ∈ p.entries, e.Plain) : p.json.Canonical := by
  obtain ⟨entries⟩ := p
  rw [json, Json.Canonical]
  induction entries with
  | nil => trivial
  | cons e entries ih =>
    exact ⟨(h e List.mem_cons_self).canonical_json,
      ih fun d hd => h d (List.mem_cons_of_mem _ hd)⟩

/-- A payload comes back from its bytes. -/
theorem unpack_pack {p : Payload} (h : ∀ e ∈ p.entries, e.Plain)
    (hfits : MessagePack.Fits p.json) (hdepth : p.json.depth ≤ MessagePack.maxDepth) :
    unpack p.pack = .ok p := by
  have hread := MessagePack.read?_write (isWhole_json h) (canonical_json h) hfits hdepth
  rw [unpack, unpack?, pack, hread]
  simp [json, MessagePack.Packed.ofJson, mapM_ofPacked? h]

/-- A payload nests its values two levels deep. -/
theorem depth_le_of_mem {p : Payload} {e : Entry} (he : e ∈ p.entries) :
    e.value.depth + 2 ≤ p.json.depth := by
  obtain ⟨entries⟩ := p
  simp only [json, Json.depth]
  induction entries with
  | nil => cases he
  | cons d entries ih =>
    simp only [List.map_cons, Json.depthItems]
    rcases List.mem_cons.1 he with rfl | he
    · simp only [Entry.json, Json.depth, Json.depthFields]
      omega
    · have hrest := ih he
      omega

/-- What opens the element of a script. -/
def scriptOpening : String := "<script id=\"lattice-data\">"

/-- What closes the element of a script. -/
def scriptClosing : String := "</script>"

/-- The body of the script that assigns the payload to a variable. -/
def scriptBody (p : Payload) (name : String) : String :=
  "window." ++ name ++ " = " ++ String.ofList (inert p.print) ++ ";"

/-- A script is its body inside its element. -/
theorem script_eq (p : Payload) {name : String} (h : isVariable name.toList) :
    p.script name = .ok (scriptOpening ++ p.scriptBody name ++ scriptClosing) := by
  have hhead : scriptHead = scriptOpening ++ "window." := by decide
  have htail : scriptTail = ";" ++ scriptClosing := by decide
  rw [script, if_pos h, hhead, htail, scriptBody]
  simp only [String.append_assoc]

/-- The text of a script around the payload has no other brackets. -/
theorem ofScript_scriptBody {p : Payload} (h : ∀ e ∈ p.entries, e.Plain ∧ e.value.depth ≤ 125)
    {name : String} (hname : isVariable name.toList) (front back : List Char)
    (hfront : '[' ∉ front) (hback : ']' ∉ back) :
    ofScript (front ++ (p.scriptBody name).toList ++ back) = .ok p := by
  have hopen : '[' ∉ front ++ ("window.".toList ++ name.toList ++ " = ".toList) := by
    simp only [List.mem_append, not_or]
    exact ⟨hfront, ⟨by decide, notMem_of_isVariable hname rfl rfl⟩, by decide⟩
  have hclose : ']' ∉ ";".toList ++ back := by
    simp only [List.mem_append, not_or]
    exact ⟨by decide, hback⟩
  have hfound := ofScript_around h hopen hclose
  simpa [scriptBody] using hfound

/-- A payload whose values have no fractions comes back from its text, from its bytes and from
its script, of the script also without the element, whatever its keys and values are. -/
theorem carried {p : Payload} (hplain : ∀ e ∈ p.entries, e.Plain) :
    (p.json.depth ≤ Json.maxDepth →
      parse p.print = .ok p ∧
      ∀ name : String, isVariable name.toList →
        p.script name = .ok (scriptOpening ++ p.scriptBody name ++ scriptClosing) ∧
        ofScript (scriptOpening ++ p.scriptBody name ++ scriptClosing).toList = .ok p ∧
        ofScript (p.scriptBody name).toList = .ok p) ∧
    (p.json.depth ≤ MessagePack.maxDepth → MessagePack.Fits p.json → unpack p.pack = .ok p) := by
  constructor
  · intro hdepth
    have hentries : ∀ e ∈ p.entries, e.Plain ∧ e.value.depth ≤ 125 := fun e he => by
      have hle := depth_le_of_mem he
      rw [Json.maxDepth] at hdepth
      exact ⟨hplain e he, by omega⟩
    refine ⟨parse_respelled Json.respells_id hentries, fun name hname =>
      ⟨script_eq p hname, ?_, ?_⟩⟩
    · have hwhole := ofScript_scriptBody hentries hname scriptOpening.toList
        scriptClosing.toList (by decide) (by decide)
      simpa using hwhole
    · have hbody := ofScript_scriptBody hentries hname [] [] (by simp) (by simp)
      simpa using hbody
  · intro hdepth hfits
    exact unpack_pack hplain hfits hdepth

/-- A key that opens a list and a value that ends a script come back all the same. -/
theorem carried_closing_script :
    let p : Payload := ⟨[⟨"[0]", .str "</script><!--"⟩]⟩
    parse p.print = .ok p ∧ unpack p.pack = .ok p ∧
      ofScript (scriptOpening ++ p.scriptBody "$data" ++ scriptClosing).toList = .ok p ∧
      ofScript (p.scriptBody "$data").toList = .ok p := by
  intro p
  have hplain : ∀ e ∈ p.entries, e.Plain := by
    intro e he
    obtain rfl := List.mem_singleton.1 he
    exact ⟨rfl, trivial⟩
  have hall := carried hplain
  have htext := hall.1 (by decide)
  have hscript := htext.2 "$data" (by decide)
  refine ⟨htext.1, hall.2 (by decide) ?_, hscript.2⟩
  simp [p, json, Entry.json, MessagePack.Fits, MessagePack.FitsItems, MessagePack.FitsFields]
  decide

end Payload

end Rivulet.Query
