import SafeHub.SGit.Correctness
import SafeHub.SGit.Push

/-!
# Ciphertext files on disk

A ciphertext file is a run of lines, none of which has a break of its own, so lines that are
appended are read after the ones before. A file that was written as a whole is read as its text. A
difference that was appended is applied to what the file held, whatever it was taken from.

## Main definitions

* `Unbroken`, `CtLines` — lines without breaks, and files of such lines

## Main results

* `readCtFile_linesFile` — the lines of a file are read back
* `decryptBody_wholeFile`, `decryptBody_changedFile` — what is read of a file that was written
-/

namespace SafeHub.SGit

open Lines

/-- A line without a break. -/
def Unbroken (l : String) : Prop := ∀ c ∈ l.toList, c ≠ '\n' ∧ c ≠ '\r'

/-- A file of whole lines. -/
def CtLines (bytes : Bytes) : Prop := ∃ ls, (∀ l ∈ ls, Unbroken l) ∧ bytes = linesFile ls

/-! ### Lines -/

theorem concat_append (ls ms : List String) : concat (ls ++ ms) = concat ls ++ concat ms := by
  rw [concat, List.flatMap_append, String.ofList_append, concat, concat]

theorem linesFile_append (ls ms : List String) :
    linesFile (ls ++ ms) = linesFile ls ++ linesFile ms := by
  rw [linesFile, List.map_append, concat_append, strBytes_append, linesFile, linesFile]

theorem chomp_append_newline {l : String} (h : Unbroken l) : chomp (l ++ "\n") = l := by
  have hreverse : (l ++ "\n").toList.reverse = '\n' :: l.toList.reverse := by simp
  rw [chomp, hreverse]
  split
  · rename_i text heq
    -- the line would end with the other half of a break
    have hlast : '\r' ∈ l.toList := by
      rw [← List.mem_reverse, (List.cons.inj heq).2]
      exact List.mem_cons_self
    exact absurd rfl (h _ hlast).2
  · rename_i text _ heq
    rw [← (List.cons.inj heq).2, List.reverse_reverse, String.ofList_toList]
  · rename_i hother
    exact absurd rfl (hother l.toList.reverse)

theorem lines_concat {ls : List String} (h : ∀ l ∈ ls, Unbroken l) :
    lines (concat (ls.map (· ++ "\n"))) = ls := by
  have hsplit : Split (· == '\n') ((ls.map (· ++ "\n")).map String.toList) := by
    induction ls with
    | nil => trivial
    | cons l ls ih =>
      obtain ⟨hl, hls⟩ := List.forall_mem_cons.mp h
      refine ⟨.inl ⟨l.toList, '\n', by simp, rfl, fun c hc => ?_⟩, ih hls⟩
      exact beq_eq_false_iff_ne.mpr (hl c hc).1
  have htext : (concat (ls.map (· ++ "\n"))).toList =
      ((ls.map (· ++ "\n")).map String.toList).flatten := by
    rw [concat, String.toList_ofList, List.flatMap]
  rw [lines, splitInclusive, htext, splitAfter_flatten hsplit, List.map_map, List.map_map,
    List.map_map]
  refine (List.map_congr_left fun l hl => ?_).trans (List.map_id ls)
  simp only [Function.comp_apply, String.ofList_toList]
  exact chomp_append_newline (h l hl)

/-- The lines of a file are read back. -/
theorem readCtFile_linesFile {ls : List String} (h : ∀ l ∈ ls, Unbroken l) :
    readCtFile (linesFile ls) = .ok (ls.headD "", ls.tail) := by
  rw [readCtFile, linesFile, fromUtf8_strBytes]
  dsimp only
  rw [lines_concat h]

theorem CtLines.append {bytes : Bytes} (hbytes : CtLines bytes) {l : String} (hl : Unbroken l) :
    CtLines (bytes ++ linesFile [l]) := by
  obtain ⟨ls, hls, rfl⟩ := hbytes
  refine ⟨ls ++ [l], ?_, (linesFile_append ls [l]).symm⟩
  exact List.forall_mem_append.mpr ⟨hls, List.forall_mem_singleton.mpr hl⟩

section Ciphertexts

variable [CommandPrimitives]
variable {key : Bytes} {v : Variant} {nonces : FileNonces} {prev body text line : String}

/-! ### What is sealed -/

theorem unbroken_base64Encode (bytes : Bytes) : Unbroken (SgitPrimitives.base64Encode bytes) :=
  CommandPrimitives.base64Encode_unbroken bytes

theorem sealText_ne_empty (key : Bytes) (nonce : Nonce) (text : String) :
    sealText key nonce text ≠ "" := by
  refine CommandPrimitives.base64Encode_ne_empty _ fun hnil => ?_
  have hlength := congrArg List.length (List.append_eq_nil_iff.mp hnil).1
  rw [Vector.length_toList] at hlength
  cases hlength

theorem mem_sealLines (h : line ∈ sealLines key (nonces 0) text) : Unbroken line ∧ line ≠ "" := by
  obtain ⟨i, hi, rfl⟩ := List.mem_mapIdx.mp h
  exact ⟨unbroken_base64Encode _, sealText_ne_empty _ _ _⟩

theorem ctLines_wholeFile (key : Bytes) (v : Variant) (nonces : FileNonces) (body : String) :
    CtLines (wholeFile key v nonces body) := by
  cases v with
  | char => exact ⟨_, List.forall_mem_singleton.mpr (unbroken_base64Encode _), rfl⟩
  | line => exact ⟨_, fun l hl => (mem_sealLines hl).1, rfl⟩

/-- No bytes are no ciphertext. -/
theorem openText_empty (key : Bytes) : ∃ e, openText key "" = .error e := by
  have hempty : strBytes "" = [] := by
    rw [strBytes_eq]
    rfl
  refine ⟨"ciphertext shorter than its nonce", ?_⟩
  rw [openText, openBytes, hempty, CommandPrimitives.base64Decode_nil]
  rfl

/-! ### What is read -/

theorem decryptBody_char {ls : List String} (h : ∀ l ∈ ls, Unbroken l) :
    decryptBody key .char (linesFile ls) =
      openText key (ls.headD "") >>= fun text => ls.tail.foldlM (replayBlock key) text := by
  rw [decryptBody, readCtFile_linesFile h]
  rfl

/-- By lines, empty ones are skipped. -/
theorem decryptBody_line {ls : List String} (h : ∀ l ∈ ls, Unbroken l) (hne : ∀ l ∈ ls, l ≠ "") :
    decryptBody key .line (linesFile ls) =
      ls.mapM (openText key) >>= fun texts => .ok (concat texts) := by
  have hkept : (ls.headD "" :: ls.tail).filter (fun l => !l.isEmpty) = ls := by
    cases ls with
    | nil => rfl
    | cons l ls =>
      rw [List.headD_cons, List.tail_cons, List.filter_eq_self]
      intro m hm
      rw [Bool.not_eq_true', String.isEmpty_eq_false_iff]
      exact hne m hm
  rw [decryptBody, readCtFile_linesFile h]
  change (((ls.headD "" :: ls.tail).filter fun l => !l.isEmpty).mapM (openText key) >>=
    fun texts => .ok (concat texts)) = _
  rw [hkept]

theorem decryptBody_wholeFile (key : Bytes) (v : Variant) (nonces : FileNonces) (body : String) :
    decryptBody key v (wholeFile key v nonces body) = .ok body := by
  cases v with
  | char =>
    have hseal : ∀ l ∈ [sealText key (nonces 0 0) body], Unbroken l :=
      List.forall_mem_singleton.mpr (unbroken_base64Encode _)
    rw [wholeFile, decryptBody_char hseal]
    exact bind_eq_ok_iff.mpr ⟨body, opensTo_sealText key _ body, rfl⟩
  | line =>
    rw [wholeFile, decryptBody_line (fun l hl => (mem_sealLines hl).1)
      fun l hl => (mem_sealLines hl).2]
    refine bind_eq_ok_iff.mpr ⟨_, mapM_eq_ok_iff.mpr (opensTo_sealLines key (nonces 0) body), ?_⟩
    exact congrArg Except.ok concat_splitInclusive

/-- A line that was appended is replayed last. -/
theorem decryptBody_append {bytes : Bytes} (hbytes : CtLines bytes)
    (h : decryptBody key .char bytes = .ok text) (hline : Unbroken line) :
    decryptBody key .char (bytes ++ linesFile [line]) = replayBlock key text line := by
  obtain ⟨ls, hls, rfl⟩ := hbytes
  have hlast : ∀ l ∈ ls ++ [line], Unbroken l :=
    List.forall_mem_append.mpr ⟨hls, List.forall_mem_singleton.mpr hline⟩
  rw [decryptBody_char hls] at h
  rw [← linesFile_append, decryptBody_char hlast]
  obtain ⟨first, hfirst, hdeltas⟩ := bind_eq_ok_iff.mp h
  cases ls with
  | nil =>
    -- an empty file has an empty base, which cannot be opened
    obtain ⟨e, he⟩ := openText_empty key
    cases he.symm.trans hfirst
  | cons base deltas =>
    rw [List.headD_cons] at hfirst
    rw [List.cons_append, List.headD_cons, List.tail_cons, hfirst]
    change (deltas ++ [line]).foldlM (replayBlock key) first = _
    rw [List.tail_cons] at hdeltas
    rw [List.foldlM_append, hdeltas]
    exact bind_pure (replayBlock key text line)

/-- A file that has changed is read as the new text, where by characters the difference fits what
the file held. -/
theorem decryptBody_changedFile {found : Option Bytes} {bytes : Bytes}
    (hprev : prev.utf8ByteSize < 2 ^ 63) (hbody : body.utf8ByteSize < 2 ^ 63)
    (hfound : ∀ old, found = some old → CtLines old)
    (hfits : v = .char → ∀ old, found = some old → ∃ text, decryptBody key .char old = .ok text ∧
      applyChars text (comDiffChar prev body) = body)
    (h : changedFile key v nonces prev body found = .ok bytes) :
    decryptBody key v bytes = .ok body := by
  cases v with
  | line =>
    -- by lines the file is written as a whole
    obtain rfl := Except.ok.inj h
    exact decryptBody_wholeFile key .line nonces body
  | char =>
    cases found with
    | none => cases h
    | some old =>
      obtain rfl := Except.ok.inj h
      obtain ⟨text, htext, happly⟩ := hfits rfl old rfl
      rw [decryptBody_append (hfound old rfl) htext (unbroken_base64Encode _), replayBlock]
      refine bind_eq_ok_iff.mpr ⟨_, openBytes_encode key _ _, ?_⟩
      rw [decodeOps_encodeOps (encodable_of_comDiffChar hprev hbody)]
      exact congrArg Except.ok happly

theorem ctLines_changedFile {found : Option Bytes} {bytes : Bytes}
    (hfound : ∀ old, found = some old → CtLines old)
    (h : changedFile key v nonces prev body found = .ok bytes) : CtLines bytes := by
  cases v with
  | line =>
    obtain rfl := Except.ok.inj h
    exact ctLines_wholeFile key .line nonces body
  | char =>
    cases found with
    | none => cases h
    | some old =>
      obtain rfl := Except.ok.inj h
      exact (hfound old rfl).append (unbroken_base64Encode _)

end Ciphertexts

end SafeHub.SGit
