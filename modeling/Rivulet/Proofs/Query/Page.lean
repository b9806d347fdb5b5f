import Rivulet.Proofs.Document.RoundTrip
import Rivulet.Proofs.Query.Codecs
import Rivulet.Proofs.Text.Letters

/-!
# The script of a payload inside a page

A page is markup with the script of a payload behind it. Keys and values come from outside, so the
script must not end early, whatever they hold: its body has no closing tag and no comment in it. It
is then the plain content of an element like any other, and the page is read as the trees of the
markup with that element behind them.
-/

namespace Rivulet

open Markup

namespace Query.Payload

/-- No closing tag is left in a text that was made inert. -/
theorem notInfix_inert_closing (s : List Char) : ¬['<', '/'] <:+: inert s := by
  have hslash : ¬['<', '/'] <:+: Text.replaceAll "</".toList "<\\/".toList s :=
    Text.notInfix_replaceAll (by decide) (by decide) (by decide) fun _ _ hstart => hstart
  exact Text.notInfix_replaceAll (by decide) (by decide) (by decide) fun t ht hstart =>
    absurd (hstart.isInfix.trans ht.isInfix) hslash

/-- No comment starts in a text that was made inert. -/
theorem notInfix_inert_comment (s : List Char) : ¬['<', '!', '-', '-'] <:+: inert s :=
  Text.notInfix_replaceAll (by decide) (by decide) (by decide) fun _ _ hstart => hstart

/-- What starts with a bracket and lies in the body of a script lies in the payload. -/
theorem infix_of_infix_scriptBody {p : Payload} {name : String} (hname : isVariable name.toList)
    {u : List Char} (hu : ';' ∉ u) (h : '<' :: u <:+: (p.scriptBody name).toList) :
    '<' :: u <:+: inert p.print := by
  have hfront : '<' ∉ "window.".toList ++ name.toList ++ " = ".toList := by
    simp only [List.mem_append, not_or]
    exact ⟨⟨by decide, notMem_of_isVariable hname rfl rfl⟩, by decide⟩
  have hbody : (p.scriptBody name).toList =
      ("window.".toList ++ name.toList ++ " = ".toList) ++ (inert p.print ++ [';']) := by
    simp [scriptBody]
  rw [hbody] at h
  exact Text.infix_of_infix_concat (by simpa using hu) (Text.infix_of_infix_append hfront h)

/-- The attributes of the element of a script. -/
def scriptAttributes : Attributes := [("id", "lattice-data")]

/-- The element of a script as a tree. -/
def scriptTree (p : Payload) (name : String) : Tree :=
  .node (.element "script" scriptAttributes) [.leaf (.text (p.scriptBody name))]

/-- The element of a script can be written. -/
theorem writable_scriptTree {p : Payload} {name : String} (hname : isVariable name.toList) :
    (p.scriptTree name).Writable := by
  have htag : IsTag "script" := .of_all (.of_all (by decide) (by decide) (by decide)) (by decide)
  have hattributes : AreAttributes scriptAttributes := by
    refine ⟨?_, by decide⟩
    simp only [scriptAttributes, List.mem_singleton, forall_eq]
    exact .of_all (by decide) (by decide) (by decide)
  have hplain : IsPlain "script" [.leaf (.text (p.scriptBody name))] := by
    refine Or.inr ⟨_, fun hempty => ?_, rfl, fun hclosing => ?_⟩
    · have hlength := congrArg String.length hempty
      simp [scriptBody] at hlength
    · exact notInfix_inert_closing p.print
        (infix_of_infix_scriptBody hname (by decide) (Text.infix_of_lowerAscii hclosing))
  have hvoid : isVoid "script" = false := by decide
  have hraw : isRaw "script" = true := by decide
  rw [scriptTree, Tree.Writable, hvoid, hraw]
  exact ⟨htag, by decide, hattributes, hplain⟩

/-- The markup of the element is the script. -/
theorem print_scriptTree (p : Payload) (name : String) :
    (p.scriptTree name).print =
      (scriptOpening ++ p.scriptBody name ++ scriptClosing).toList := by
  have hopening : openTag "script" scriptAttributes ++ ['>'] = scriptOpening.toList := by decide
  have hclosing : closeTag "script" = scriptClosing.toList := by decide
  have hvoid : isVoid "script" = false := by decide
  have hraw : isRaw "script" = true := by decide
  rw [scriptTree, Tree.print, hvoid, hraw, hclosing]
  simp [Tree.printRaw, Tree.leaf, Kind.text?, ← hopening]

/-- Markup with the script of a payload behind it is the markup of one tree more. -/
theorem print_append_script (ts : List Tree) (p : Payload) (name : String) :
    Markup.print ts ++ (scriptOpening ++ p.scriptBody name ++ scriptClosing) =
      Markup.print (ts ++ [p.scriptTree name]) := by
  rw [Markup.print, Markup.print, Tree.printAll_concat ts rfl, print_scriptTree,
    String.ofList_append, String.ofList_toList]

/-- Whatever a payload holds, its script is the plain content of an element in a page: behind markup
that can be read back, the page is read as the children of that markup, which stay as they are, and
one element more. The body of the script, of which the payload comes back, holds neither a closing
tag nor a comment. -/
theorem script_inert {α : Type} {p : Payload} (hplain : ∀ e ∈ p.entries, e.Plain)
    (hdepth : p.json.depth ≤ Json.maxDepth) {name : String} (hname : isVariable name.toList)
    (d : Document α) (id : DomId) (hmarkup : (d.kind id).tag?.any isRaw = false)
    (hwritable : Tree.AllWritable (d.forest id)) :
    ∃ (script body : String) (page page' : Document α) (s : DomId),
      p.script name = .ok script ∧
      Document.parse (d.inner id) = .ok page ∧
      Document.parse (d.inner id ++ script) = .ok page' ∧
      page'.children Document.root = page.children Document.root ++ [s] ∧
      (∀ c ∈ page.children Document.root, page'.tree c = page.tree c) ∧
      page'.tree s = .node (.element "script" [("id", "lattice-data")]) [.leaf (.text body)] ∧
      ofScript body.toList = .ok p ∧
      ¬['<', '/'] <:+: body.toList ∧ ¬['<', '!', '-', '-'] <:+: body.toList := by
  have hall : Tree.AllWritable (d.forest id ++ [p.scriptTree name]) := by
    rw [Tree.allWritable_iff] at hwritable ⊢
    simp only [List.mem_append, List.mem_singleton]
    rintro t (ht | rfl)
    · exact hwritable t ht
    · exact writable_scriptTree hname
  have hholdable (t : Tree) (ht : t ∈ d.forest id ++ [p.scriptTree name]) : t.Holdable :=
    Tree.holdable_of_writable (Tree.allWritable_iff.1 hall t ht)
  have hinner : d.inner id = Markup.print (d.forest id) := by
    rw [Document.inner, printChildren, hmarkup]
    rfl
  have hread := Markup.parse_print hwritable
  have hread' := Markup.parse_print hall
  rw [← print_append_script, ← hinner] at hread'
  rw [← hinner] at hread
  obtain ⟨page, page', new, hpage, hpage', hchildren, htrees, hsame⟩ :=
    Document.parse_of_parse_append hread hread'
      (fun t ht => hholdable t (List.mem_append_left _ ht))
      fun t ht => hholdable t (List.mem_append_right _ ht)
  obtain ⟨s, rfl, hs⟩ : ∃ s, new = [s] ∧ page'.tree s = p.scriptTree name := by
    simpa [List.map_eq_cons_iff] using htrees
  have hentries (e : Entry) (he : e ∈ p.entries) : e.Plain ∧ e.value.depth ≤ 125 := by
    have hle := depth_le_of_mem he
    rw [Json.maxDepth] at hdepth
    exact ⟨hplain e he, by omega⟩
  have hbody := ofScript_scriptBody hentries hname [] [] (by simp) (by simp)
  refine ⟨_, p.scriptBody name, page, page', s, script_eq p hname, hpage, hpage', hchildren, hsame,
    hs, by simpa using hbody, fun hclosing => ?_, fun hcomment => ?_⟩
  · exact notInfix_inert_closing _ (infix_of_infix_scriptBody hname (by decide) hclosing)
  · exact notInfix_inert_comment _ (infix_of_infix_scriptBody hname (by decide) hcomment)

/-- A key and a value that close scripts and open comments are read as plain content. -/
theorem script_inert_closing_script :
    let p : Payload := ⟨[⟨"</SCRIPT>", .str "</script><!--"⟩]⟩
    let d : Document Unit :=
      ({} : Document Unit).plantUnder Document.root [.leaf (.text "a < b"), .leaf (.comment "c")]
    ∃ (script body : String) (page : Document Unit) (s : DomId),
      p.script "$data" = .ok script ∧ Document.parse (d.inner Document.root ++ script) = .ok page ∧
      page.tree s = .node (.element "script" [("id", "lattice-data")]) [.leaf (.text body)] ∧
      ofScript body.toList = .ok p ∧ ¬['<', '/'] <:+: body.toList := by
  intro p d
  have hplain : ∀ e ∈ p.entries, e.Plain := by
    intro e he
    obtain rfl := List.mem_singleton.1 he
    exact ⟨rfl, trivial⟩
  have hname : isVariable "$data".toList := by decide
  have hcomment : IsComment "c" := ⟨by decide +kernel, by decide⟩
  have hwritable : Tree.AllWritable [.leaf (.text "a < b"), .leaf (.comment "c")] :=
    ⟨rfl, ⟨hcomment, rfl⟩, trivial⟩
  have hforest : d.forest Document.root = [.leaf (.text "a < b"), .leaf (.comment "c")] :=
    Document.forest_plantUnder fun t ht =>
      Tree.holdable_of_writable (Tree.allWritable_iff.1 hwritable t ht)
  obtain ⟨script, body, -, page, s, hscript, -, hpage, -, -, htree, hback, hclosing, -⟩ :=
    script_inert hplain (by decide) hname d Document.root (by decide +kernel) (hforest ▸ hwritable)
  exact ⟨script, body, page, s, hscript, hpage, htree, hback, hclosing⟩

end Query.Payload

end Rivulet
