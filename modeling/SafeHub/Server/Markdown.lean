import SafeHub.Lib.Markup
import SafeHub.Lib.Trim
import SafeHub.SGit.Command

/-!
# Markdown on the server's pages

Files and issue bodies are rendered line by line: headings, fenced code, bullets and paragraphs,
with code and bold spans in a line. A line is escaped before anything is done to it. Spans are
found by cutting at their delimiters, for code first and then for bold text.

## Main definitions

* `htmlEscape`, `wrapAlternating`, `inlineMarkdown` — one line
* `Rendering`, `renderLine`, `renderMarkdown` — the loop over the lines
* `Block` — a paragraph, a list, a heading or code, with escaped text

## Main results

* `renderMarkdown_eq_blocks` — every text is rendered as a sequence of closed blocks
* `renderMarkdown_markup` — there is no markup besides that of the renderer
-/

namespace SafeHub

open Markup Trim

/-! ### Lines -/

/-- `html_escape`, one character after the other. -/
def htmlEscape (cs : List Char) : List Char :=
  replace '"' "&quot;".toList (replace '>' "&gt;".toList (replace '<' "&lt;".toList
    (replace '&' "&amp;".toList cs)))

def openTag (name : String) : List Char := '<' :: (name.toList ++ ['>'])

def closeTag (name : String) : List Char := '<' :: '/' :: (name.toList ++ ['>'])

/-- Every other piece of a line between delimiters is put into a tag, unless it is the last. -/
def wrapAlternating (cs delim : List Char) (tag : String) : List Char :=
  let parts := splitText delim cs
  if parts.length < 3 then cs
  else parts.zipIdx.flatMap fun (part, i) =>
    if i % 2 = 1 ∧ i = parts.length - 1 then delim ++ part
    else if i % 2 = 1 then openTag tag ++ part ++ closeTag tag
    else part

def inlineMarkdown (cs : List Char) : List Char :=
  wrapAlternating (wrapAlternating (htmlEscape cs) ['`'] "code") ['*', '*'] "strong"

/-- What has been rendered so far: the output, the lines of a paragraph, and whether a code block
or a list is open. -/
structure Rendering where
  out : List Char
  para : List (List Char)
  inCode : Bool
  inList : Bool
  deriving DecidableEq, Repr

namespace Rendering

def new : Rendering := ⟨[], [], false, false⟩

def flushPara (r : Rendering) : Rendering :=
  if r.para ≠ [] then
    { r with out := r.out ++ (openTag "p" ++ [' '].intercalate r.para ++ closeTag "p"), para := [] }
  else r

def closeList (r : Rendering) : Rendering :=
  if r.inList then { r with out := r.out ++ closeTag "ul", inList := false } else r

def fence (r : Rendering) : Rendering :=
  { r with
    out := r.out ++ (if r.inCode then closeTag "code" ++ closeTag "pre"
      else openTag "pre" ++ openTag "code")
    inCode := !r.inCode }

def bullet (r : Rendering) (rest : List Char) : Rendering :=
  let r := if r.inList then r else { r with out := r.out ++ openTag "ul", inList := true }
  { r with out := r.out ++ (openTag "li" ++ inlineMarkdown rest ++ closeTag "li") }

/-- The text after a bullet. -/
def bulletOf (trimmed : List Char) : Option (List Char) :=
  (trimmed.dropPrefix? ['-', ' ']).or (trimmed.dropPrefix? ['*', ' '])

/-- The heading of a line of some hashes and a space. -/
def heading (trimmed : List Char) (hashes : ℕ) : List Char :=
  let level := "h" ++ (min hashes 4).repr
  openTag level ++ inlineMarkdown (trim (trimmed.drop (hashes + 1))) ++ closeTag level

/-- The next line. -/
def renderLine (r : Rendering) (line : List Char) : Rendering :=
  let trimmed := line.rdropWhile isWhitespace
  if ['`', '`', '`'].isPrefixOf (trimmed.dropWhile isWhitespace) then r.flushPara.closeList.fence
  else if r.inCode then { r with out := r.out ++ (htmlEscape trimmed ++ ['\n']) }
  else if trim trimmed = [] then r.flushPara.closeList
  else
    match bulletOf trimmed with
    | some rest => r.flushPara.bullet rest
    | none =>
      let r := r.closeList
      let hashes := (trimmed.takeWhile (· = '#')).length
      if 1 ≤ hashes ∧ hashes ≤ 6 ∧ [' '].isPrefixOf (trimmed.drop hashes) then
        { r.flushPara with out := r.flushPara.out ++ heading trimmed hashes }
      else { r with para := r.para ++ [inlineMarkdown trimmed] }

/-- What is still open is closed. -/
def finish (r : Rendering) : List Char :=
  let r := r.flushPara.closeList
  r.out ++ if r.inCode then closeTag "code" ++ closeTag "pre" else []

end Rendering

def renderMarkdown (src : String) : String :=
  String.ofList ((SGit.lines src).foldl (fun (r : Rendering) line => r.renderLine line.toList)
    Rendering.new).finish

example : renderMarkdown "# a <b>\n- `x`\n- **y" =
    "<h1>a &lt;b&gt;</h1><ul><li><code>x</code></li><li>**y</li></ul>" := by
  decide +kernel

/-! ### Blocks -/

def htmlReferences : List (Char × List Char) :=
  [('&', "&amp;".toList), ('<', "&lt;".toList), ('>', "&gt;".toList), ('"', "&quot;".toList)]

/-- The tags within a line. -/
def inlineTags : List (List Char) :=
  ["code", "strong"].flatMap fun name => [openTag name, closeTag name]

/-- All tags of a rendered text. -/
def markdownTags : List (List Char) :=
  ["p", "ul", "li", "pre", "code", "strong", "h1", "h2", "h3", "h4"].flatMap fun name =>
    [openTag name, closeTag name]

/-- Text within a line. -/
structure Inline where
  text : List Char
  built : Built (markup htmlReferences inlineTags) text

/-- Text within code. -/
structure CodeText where
  text : List Char
  built : Built (markup htmlReferences []) text

inductive Block
  | paragraph (lines : List Inline) (hne : lines ≠ [])
  | bullets (items : List Inline) (hne : items ≠ [])
  | code (text : CodeText)
  | heading (level : ℕ) (hpos : 1 ≤ level) (hle : level ≤ 4) (text : Inline)

def itemsHtml (items : List Inline) : List Char :=
  items.flatMap fun item => openTag "li" ++ item.text ++ closeTag "li"

def Block.html : Block → List Char
  | paragraph lines _ => openTag "p" ++ [' '].intercalate (lines.map Inline.text) ++ closeTag "p"
  | bullets items _ => openTag "ul" ++ itemsHtml items ++ closeTag "ul"
  | code text => openTag "pre" ++ openTag "code" ++ text.text ++ (closeTag "code" ++ closeTag "pre")
  | heading level _ _ text =>
    openTag ("h" ++ level.repr) ++ text.text ++ closeTag ("h" ++ level.repr)

/-! ### Lines are escaped -/

/-- One reference after the other is all references at once: the ampersands come first. -/
theorem htmlEscape_eq_escape (cs : List Char) : htmlEscape cs = escape htmlReferences cs := by
  rw [htmlEscape]
  nth_rewrite 1 [← escape_nil cs]
  rw [replace_escape (by decide) (by decide), replace_escape (by decide) (by decide),
    replace_escape (by decide) (by decide), replace_escape (by decide) (by decide)]
  rfl

theorem built_htmlEscape (cs : List Char) : Built (markup htmlReferences []) (htmlEscape cs) := by
  rw [htmlEscape_eq_escape]
  exact built_escape cs

theorem mem_markup_separator {tags : List (List Char)} {c : Char}
    (hreferences : ∀ reference ∈ htmlReferences.map Prod.snd, c ∉ reference)
    (htags : ∀ tag ∈ tags, c ∉ tag) :
    ∀ unit ∈ markup htmlReferences tags, c ∈ unit → unit = [c] := by
  rintro unit (⟨d, -, rfl⟩ | hreference | htag) hc
  · rw [List.mem_singleton.mp hc]
  · exact absurd hc (hreferences unit hreference)
  · exact absurd hc (htags unit htag)

/-- Cutting at a delimiter and putting pieces into tags keeps a text well-formed. -/
theorem built_wrapAlternating {tags tags' : List (List Char)} {cs : List Char} {c : Char} {k : ℕ}
    {tag : String} (h : Built (markup htmlReferences tags) cs)
    (hreferences : ∀ reference ∈ htmlReferences.map Prod.snd, c ∉ reference)
    (htags : ∀ tag ∈ tags, c ∉ tag) (hc : c ∉ htmlReferences.map Prod.fst) (hsub : tags ⊆ tags')
    (hopen : openTag tag ∈ tags') (hclose : closeTag tag ∈ tags') :
    Built (markup htmlReferences tags') (wrapAlternating cs (List.replicate (k + 1) c) tag) := by
  have hparts := h.of_splitText (k := k) (mem_markup_separator hreferences htags)
  have hdelim : Built (markup htmlReferences tags') (List.replicate (k + 1) c) := by
    have hchars : Built (markup htmlReferences tags') _ := (built_char hc).replicate (k + 1)
    rwa [List.flatten_replicate_singleton] at hchars
  rw [wrapAlternating]
  split
  · exact h.mono (markup_mono hsub)
  · refine .flatMap fun item hitem => ?_
    have hpart : Built (markup htmlReferences tags') item.1 :=
      (hparts item.1 (List.fst_mem_of_mem_zipIdx hitem)).mono (markup_mono hsub)
    dsimp only
    split
    · exact hdelim.concat hpart
    · split
      · exact ((built_tag hopen).concat hpart).concat (built_tag hclose)
      · exact hpart

/-- A rendered line has code and bold spans, and no other markup. -/
theorem built_inlineMarkdown (cs : List Char) :
    Built (markup htmlReferences inlineTags) (inlineMarkdown cs) := by
  have hcode : Built (markup htmlReferences [openTag "code", closeTag "code"])
      (wrapAlternating (htmlEscape cs) (List.replicate 1 '`') "code") :=
    built_wrapAlternating (built_htmlEscape cs) (by decide) (by decide) (by decide) (by decide)
      (by decide) (by decide)
  exact built_wrapAlternating (k := 1) hcode (by decide) (by decide) (by decide) (by decide)
    (by decide) (by decide)

def Inline.of (cs : List Char) : Inline := ⟨inlineMarkdown cs, built_inlineMarkdown cs⟩

theorem Inline.text_of (cs : List Char) : (Inline.of cs).text = inlineMarkdown cs := by
  rw [Inline.of]

/-! ### The loop over the lines -/

/-- What is not closed yet: lines of a paragraph, bullets or code. -/
inductive Pending
  | paragraph (lines : List Inline)
  | bullets (items : List Inline) (hne : items ≠ [])
  | code (text : CodeText)

namespace Pending

/-- The part of it that is written already. -/
def html : Pending → List Char
  | paragraph _ => []
  | bullets items _ => openTag "ul" ++ itemsHtml items
  | code text => openTag "pre" ++ openTag "code" ++ text.text

def para : Pending → List Inline
  | paragraph lines => lines
  | _ => []

def inCode : Pending → Bool
  | code _ => true
  | _ => false

def inList : Pending → Bool
  | bullets _ _ => true
  | _ => false

/-- The block that it becomes. -/
def close : Pending → List Block
  | paragraph [] => []
  | paragraph (first :: rest) => [.paragraph (first :: rest) (List.cons_ne_nil _ _)]
  | bullets items hne => [.bullets items hne]
  | code text => [.code text]

end Pending

def blocksHtml (blocks : List Block) : List Char := blocks.flatMap Block.html

/-- What has been rendered is some blocks and one that is not closed. -/
structure Rendering.Holds (r : Rendering) (blocks : List Block) (pending : Pending) : Prop where
  out : r.out = blocksHtml blocks ++ pending.html
  para : r.para = pending.para.map Inline.text
  inCode : r.inCode = pending.inCode
  inList : r.inList = pending.inList

namespace Rendering.Holds

variable {r : Rendering} {blocks : List Block} {pending : Pending} {lines items : List Inline}
  {text : CodeText}

theorem new : Rendering.new.Holds [] (.paragraph []) := ⟨rfl, rfl, rfl, rfl⟩

theorem blocksHtml_concat (blocks : List Block) (block : Block) :
    blocksHtml (blocks ++ [block]) = blocksHtml blocks ++ block.html := by
  rw [blocksHtml, List.flatMap_append, List.flatMap_singleton, blocksHtml]

theorem closeList_lines (h : r.Holds blocks (.paragraph lines)) : r.closeList = r := by
  rw [closeList, if_neg]
  rw [h.inList]
  exact Bool.false_ne_true

theorem flushPara_bullets {hne : items ≠ []} (h : r.Holds blocks (.bullets items hne)) :
    r.flushPara = r := by
  rw [flushPara, if_neg]
  rw [h.para]
  exact fun hpara => hpara rfl

theorem flushPara_code (h : r.Holds blocks (.code text)) : r.flushPara = r := by
  rw [flushPara, if_neg]
  rw [h.para]
  exact fun hpara => hpara rfl

theorem closeList_code (h : r.Holds blocks (.code text)) : r.closeList = r := by
  rw [closeList, if_neg]
  rw [h.inList]
  exact Bool.false_ne_true

/-- A paragraph is closed. -/
theorem flushPara (h : r.Holds blocks (.paragraph lines)) :
    r.flushPara.Holds (blocks ++ (Pending.paragraph lines).close) (.paragraph []) := by
  rw [Rendering.flushPara]
  cases lines with
  | nil =>
    rw [if_neg (by rw [h.para]; exact fun hpara => hpara rfl), Pending.close, List.append_nil]
    exact h
  | cons first rest =>
    rw [if_pos (by rw [h.para]; exact List.cons_ne_nil _ _)]
    refine ⟨?_, rfl, h.inCode, h.inList⟩
    rw [Pending.close, blocksHtml_concat, h.out, h.para, Pending.html, List.append_nil, Block.html]
    exact (List.append_nil _).symm

/-- A list is closed. -/
theorem closeList {hne : items ≠ []} (h : r.Holds blocks (.bullets items hne)) :
    r.closeList.Holds (blocks ++ [.bullets items hne]) (.paragraph []) := by
  rw [Rendering.closeList, if_pos (by rw [h.inList]; rfl)]
  refine ⟨?_, h.para, h.inCode, rfl⟩
  rw [blocksHtml_concat, h.out, Pending.html, Block.html]
  simp only [List.append_assoc, Pending.html, List.append_nil]

/-- What is open outside code is closed. -/
theorem close (h : r.Holds blocks pending) (hcode : r.inCode = false) :
    r.flushPara.closeList.Holds (blocks ++ pending.close) (.paragraph []) := by
  cases pending with
  | paragraph lines =>
    have hflush := h.flushPara
    rw [hflush.closeList_lines]
    exact hflush
  | bullets items hne =>
    rw [h.flushPara_bullets]
    exact h.closeList
  | code text => exact absurd (hcode.symm.trans h.inCode) Bool.false_ne_true

/-- A fence opens code, or closes it. -/
theorem fence (h : r.Holds blocks pending) :
    ∃ blocks' pending', r.flushPara.closeList.fence.Holds blocks' pending' := by
  cases hcode : r.inCode with
  | false =>
    have hclosed := h.close hcode
    refine ⟨blocks ++ pending.close, .code ⟨[], .nil⟩, ?_, hclosed.para, ?_, hclosed.inList⟩
    · rw [Rendering.fence, hclosed.inCode, hclosed.out]
      simp [Pending.html, Pending.inCode]
    · rw [Rendering.fence, hclosed.inCode]
      rfl
  | true =>
    cases pending with
    | code text =>
      rw [h.flushPara_code, h.closeList_code]
      refine ⟨blocks ++ [.code text], .paragraph [], ?_, h.para, ?_, h.inList⟩
      · rw [Rendering.fence, hcode, if_pos rfl, blocksHtml_concat, h.out, Pending.html, Block.html]
        simp only [List.append_assoc, Pending.html, List.append_nil]
      · rw [Rendering.fence, hcode]
        rfl
    | _ => exact absurd (hcode.symm.trans h.inCode) (Bool.false_ne_true ∘ Eq.symm)

/-- A line of code. -/
theorem codeLine (h : r.Holds blocks (.code text)) (trimmed : List Char) :
    Holds { r with out := r.out ++ (htmlEscape trimmed ++ ['\n']) } blocks
      (.code ⟨text.text ++ (htmlEscape trimmed ++ ['\n']),
        text.built.concat ((built_htmlEscape trimmed).concat (built_char (by decide)))⟩) := by
  refine ⟨?_, h.para, h.inCode, h.inList⟩
  rw [h.out, Pending.html, Pending.html]
  simp only [List.append_assoc]

/-- A bullet starts a list or goes on with one. -/
theorem bullet (h : r.Holds blocks pending) (hcode : r.inCode = false) (rest : List Char) :
    ∃ blocks' pending', (r.flushPara.bullet rest).Holds blocks' pending' := by
  cases pending with
  | paragraph lines =>
    have hflush := h.flushPara
    refine ⟨blocks ++ (Pending.paragraph lines).close, .bullets [.of rest] (List.cons_ne_nil _ _),
      ?_, ?_, ?_, ?_⟩
    · rw [Rendering.bullet, hflush.inList]
      simp [hflush.out, Pending.html, Pending.inList, itemsHtml, Inline.of]
    · simp [Rendering.bullet, hflush.inList, Pending.inList, hflush.para, Pending.para]
    · simp [Rendering.bullet, hflush.inList, Pending.inList, hflush.inCode, Pending.inCode]
    · simp [Rendering.bullet, hflush.inList, Pending.inList]
  | bullets items hne =>
    rw [h.flushPara_bullets]
    refine ⟨blocks, .bullets (items ++ [.of rest]) (by simp), ?_, ?_, ?_, ?_⟩
    · rw [Rendering.bullet, h.inList]
      simp [h.out, Pending.html, Pending.inList, itemsHtml, Inline.of]
    · simp [Rendering.bullet, h.inList, Pending.inList, h.para, Pending.para]
    · simp [Rendering.bullet, h.inList, Pending.inList, h.inCode, Pending.inCode]
    · simp [Rendering.bullet, h.inList, Pending.inList]
  | code text => exact absurd (hcode.symm.trans h.inCode) Bool.false_ne_true

/-- A list ends before a line that is no bullet. -/
theorem endList (h : r.Holds blocks pending) (hcode : r.inCode = false) :
    ∃ blocks' lines, r.closeList.Holds blocks' (.paragraph lines) := by
  cases pending with
  | paragraph lines => exact ⟨blocks, lines, by rwa [h.closeList_lines]⟩
  | bullets items hne => exact ⟨_, _, h.closeList⟩
  | code text => exact absurd (hcode.symm.trans h.inCode) Bool.false_ne_true

theorem heading (h : r.Holds blocks (.paragraph lines)) (trimmed : List Char) {hashes : ℕ}
    (hpos : 1 ≤ hashes) :
    ∃ blocks', Holds { r.flushPara with
      out := r.flushPara.out ++ Rendering.heading trimmed hashes } blocks' (.paragraph []) := by
  have hflush := h.flushPara
  refine ⟨blocks ++ (Pending.paragraph lines).close ++ [.heading (min hashes 4)
    (le_min hpos (by decide)) (min_le_right _ _) (.of (trim (trimmed.drop (hashes + 1))))], ?_,
    hflush.para, hflush.inCode, hflush.inList⟩
  simp only [blocksHtml_concat, hflush.out, Pending.html, List.append_nil, Block.html,
    Rendering.heading, Inline.of]

/-- Every line leaves blocks and one that is open. -/
theorem renderLine (h : r.Holds blocks pending) (line : List Char) :
    ∃ blocks' pending', (r.renderLine line).Holds blocks' pending' := by
  rw [Rendering.renderLine]
  dsimp only
  split
  · exact h.fence
  split
  · next hcode =>
    cases pending with
    | code text => exact ⟨blocks, _, h.codeLine (line.rdropWhile isWhitespace)⟩
    | _ => exact absurd (hcode.symm.trans h.inCode) (Bool.false_ne_true ∘ Eq.symm)
  have hcode : r.inCode = false := by simpa using ‹¬ r.inCode = true›
  split
  · exact ⟨_, _, h.close hcode⟩
  split
  · exact h.bullet hcode _
  obtain ⟨blocks', lines, hended⟩ := h.endList hcode
  split
  · next hhashes =>
    obtain ⟨blocks'', hheading⟩ := hended.heading (line.rdropWhile isWhitespace) hhashes.1
    exact ⟨blocks'', _, hheading⟩
  · refine ⟨blocks', .paragraph (lines ++ [.of (line.rdropWhile isWhitespace)]), hended.out, ?_,
      hended.inCode, hended.inList⟩
    rw [hended.para, Pending.para, Pending.para, List.map_append, List.map_singleton,
      Inline.text_of]

theorem foldl_renderLine (h : r.Holds blocks pending) (lines : List String) :
    ∃ blocks' pending', Holds (lines.foldl (fun (r : Rendering) line => r.renderLine line.toList) r)
      blocks' pending' := by
  induction lines generalizing r blocks pending with
  | nil => exact ⟨blocks, pending, h⟩
  | cons line lines ih =>
    obtain ⟨blocks', pending', hline⟩ := h.renderLine line.toList
    exact ih hline

/-- At the end the open block is closed. -/
theorem finish (h : r.Holds blocks pending) :
    r.finish = blocksHtml (blocks ++ pending.close) := by
  rw [Rendering.finish]
  cases hcode : r.inCode with
  | false =>
    have hclosed := h.close hcode
    rw [hclosed.inCode, hclosed.out]
    simp [Pending.html, Pending.inCode]
  | true =>
    cases pending with
    | code text =>
      rw [h.flushPara_code, h.closeList_code, hcode, if_pos rfl, Pending.close, blocksHtml_concat,
        h.out, Pending.html, Block.html]
      simp only [List.append_assoc]
    | _ => exact absurd (hcode.symm.trans h.inCode) (Bool.false_ne_true ∘ Eq.symm)

end Rendering.Holds

/-- Every text is rendered as a sequence of closed blocks, whose text is escaped and has no tags
besides code and bold spans. -/
theorem renderMarkdown_eq_blocks (src : String) :
    ∃ blocks, (renderMarkdown src).toList = blocksHtml blocks := by
  obtain ⟨blocks, pending, hholds⟩ := Rendering.Holds.new.foldl_renderLine (SGit.lines src)
  exact ⟨_, String.toList_ofList.trans hholds.finish⟩

/-! ### Markup -/

theorem built_block (block : Block) : Built (markup htmlReferences markdownTags) block.html := by
  have htag (name : String) (h : openTag name ∈ markdownTags ∧ closeTag name ∈ markdownTags)
      {text : List Char} (htext : Built (markup htmlReferences markdownTags) text) :
      Built (markup htmlReferences markdownTags) (openTag name ++ text ++ closeTag name) :=
    ((built_tag h.1).concat htext).concat (built_tag h.2)
  have hinline (text : Inline) : Built (markup htmlReferences markdownTags) text.text :=
    text.built.mono (markup_mono (by decide))
  cases block with
  | paragraph lines hne =>
    refine htag "p" (by decide) (.intercalate (built_char (by decide)) ?_)
    exact List.forall_mem_map.mpr fun line _ => hinline line
  | bullets items hne =>
    exact htag "ul" (by decide) (.flatMap fun item _ => htag "li" (by decide) (hinline item))
  | code text =>
    have htext : Built (markup htmlReferences markdownTags) text.text :=
      text.built.mono (markup_mono (by decide))
    have hblock := htag "pre" (by decide) (htag "code" (by decide) htext)
    simpa only [Block.html, List.append_assoc] using hblock
  | heading level hpos hle text =>
    have hlevel : level ∈ [1, 2, 3, 4] := by
      simp only [List.mem_cons, List.not_mem_nil, or_false]
      omega
    exact htag _ ((by decide : ∀ level ∈ [1, 2, 3, 4],
      openTag ("h" ++ Nat.repr level) ∈ markdownTags ∧
      closeTag ("h" ++ Nat.repr level) ∈ markdownTags) level hlevel) (hinline text)

/-- Tags have their brackets at their ends only. -/
theorem markdownTags_ends : ∀ tag ∈ markdownTags, tag.head? = some '<' ∧ '<' ∉ tag.tail ∧
    tag.getLast? = some '>' ∧ '>' ∉ tag.dropLast ∧ '&' ∉ tag ∧ '"' ∉ tag := by
  decide

/-- References start with their ampersands and have no other special characters. -/
theorem htmlReferences_ends : ∀ reference ∈ htmlReferences.map Prod.snd,
    reference.head? = some '&' ∧ '&' ∉ reference.tail ∧ '<' ∉ reference ∧ '>' ∉ reference ∧
      '"' ∉ reference := by
  decide

/-- In a rendered text every bracket belongs to a tag of the renderer, every ampersand starts a
reference, and there are no quotes. -/
theorem renderMarkdown_markup (src : String) {front back : List Char} {c : Char}
    (h : (renderMarkdown src).toList = front ++ c :: back) :
    (c = '<' → ∃ tag ∈ markdownTags, tag <+: c :: back) ∧
      (c = '>' → ∃ tag ∈ markdownTags, tag <:+ front ++ [c]) ∧
      (c = '&' → ∃ reference ∈ htmlReferences.map Prod.snd, reference <+: c :: back) ∧
      c ≠ '"' := by
  obtain ⟨blocks, pending, hholds⟩ := Rendering.Holds.new.foldl_renderLine (SGit.lines src)
  have hbuilt : Built (markup htmlReferences markdownTags) (front ++ c :: back) := by
    rw [← h, renderMarkdown, String.toList_ofList, hholds.finish]
    exact .flatMap fun block _ => built_block block
  -- the character lies in one unit: a plain character, a reference or a tag
  obtain ⟨before, after, rest, hunit, hbefore, rfl⟩ := hbuilt.exists_unit
  have hmem : c ∈ before ++ c :: after := List.mem_append_right _ List.mem_cons_self
  rcases hunit with ⟨d, hd, heq⟩ | hreference | htag
  · -- a character that needs no reference
    obtain ⟨rfl, -⟩ := List.append_eq_singleton_iff.mp heq |>.resolve_right (by simp)
    obtain ⟨rfl, -⟩ := List.cons.inj heq
    have hkeys : ∀ s ∈ ['<', '>', '&', '"'], s ∈ htmlReferences.map Prod.fst := by
      simp [htmlReferences]
    have hspecial : ∀ s ∈ ['<', '>', '&', '"'], c ≠ s := fun s hs heq =>
      hd (heq ▸ hkeys s hs)
    exact ⟨fun heq => absurd heq (hspecial _ (by simp)),
      fun heq => absurd heq (hspecial _ (by simp)),
      fun heq => absurd heq (hspecial _ (by simp)), hspecial _ (by simp)⟩
  · obtain ⟨-, htail, hlt, hgt, hquot⟩ := htmlReferences_ends _ hreference
    refine ⟨fun heq => absurd hmem (heq ▸ hlt), fun heq => absurd hmem (heq ▸ hgt), ?_,
      fun heq => hquot (heq ▸ hmem)⟩
    rintro rfl
    cases before with
    | nil => exact ⟨_, hreference, List.prefix_append _ rest⟩
    | cons d before => exact absurd (List.mem_append_right _ List.mem_cons_self) htail
  · obtain ⟨-, htail, -, hinit, hamp, hquot⟩ := markdownTags_ends _ htag
    refine ⟨?_, ?_, fun heq => absurd hmem (heq ▸ hamp), fun heq => hquot (heq ▸ hmem)⟩
    · rintro rfl
      cases before with
      | nil => exact ⟨_, htag, List.prefix_append _ rest⟩
      | cons d before => exact absurd (List.mem_append_right _ List.mem_cons_self) htail
    · rintro rfl
      cases after using List.reverseRecOn with
      | nil =>
        obtain ⟨pre, rfl⟩ := hbefore
        exact ⟨_, htag, pre, (List.append_assoc _ _ _).symm⟩
      | append_singleton after d =>
        refine absurd ?_ hinit
        rw [← List.cons_append, ← List.append_assoc, List.dropLast_concat]
        exact List.mem_append_right _ List.mem_cons_self

theorem renderMarkdown_markup_script :
    ∃ reference ∈ htmlReferences.map Prod.snd, reference <+: "&lt;script&gt;</p>".toList :=
  (@renderMarkdown_markup "<script>" "<p>".toList _ _ (by decide +kernel)).2.2.1 rfl

end SafeHub
