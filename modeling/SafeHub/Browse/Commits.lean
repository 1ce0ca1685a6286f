import SafeHub.Browse.Links
import Mathlib.Data.List.Forall2

/-!
# Listed commits

The history page asks git for its commits in a format of its own, with one control character
between the fields of a commit and another one after each commit, and splits what it gets at these
characters. Git stores every byte but zero in the texts of a commit, so a text may hold the same
characters, and then it is split as well.

## Main definitions

* `GitCommit`, `GitLog` — commits, and what git writes of them
* `parseCommits`, `listCommits` — the records that are read from it
* `Shows` — a record that has the fields of a commit

## Main results

* `showsAll_iff` — the commits that are listed as they are
-/

namespace SafeHub.Browse

open Trim

/-! ### What git writes -/

/-- A text of printing ASCII characters without blanks, such as a date. -/
structure Word where
  text : String
  printing : ∀ c ∈ text.toList, '!' ≤ c ∧ c ≤ '~'

/-- The name of an object. -/
structure ObjectName extends Word where
  ne_empty : text ≠ ""

/-- A text that git stores in a commit. -/
structure StoredText where
  bytes : Bytes
  noNul : (0 : UInt8) ∉ bytes

structure GitCommit where
  id : ObjectName
  short : ObjectName
  author : StoredText
  email : StoredText
  date : Word
  parents : List ObjectName
  subject : StoredText
  body : StoredText

/-- The texts that a contributor chooses. -/
def GitCommit.texts (c : GitCommit) : List StoredText := [c.author, c.email, c.subject, c.body]

/-- A part of a format: `%H`, `%h`, `%an`, `%ae`, `%aI`, `%P`, `%s`, `%b` or a byte. -/
inductive Placeholder
  | hash
  | shortHash
  | authorName
  | authorEmail
  | authorDate
  | parentHashes
  | subject
  | body
  | byte (x : UInt8)

/-- What git puts for it. -/
def GitCommit.expand (c : GitCommit) : Placeholder → Bytes
  | .hash => strBytes c.id.text
  | .shortHash => strBytes c.short.text
  | .authorName => c.author.bytes
  | .authorEmail => c.email.bytes
  | .authorDate => strBytes c.date.text
  | .parentHashes => [0x20].intercalate (c.parents.map fun parent => strBytes parent.text)
  | .subject => c.subject.bytes
  | .body => c.body.bytes
  | .byte x => [x]

/-- `git log` with a format. -/
structure GitLog where
  log (format : List Placeholder) (commits : List GitCommit) : Bytes
  /-- `format:` puts a newline between two commits. -/
  log_eq (format : List Placeholder) (commits : List GitCommit) : log format commits =
    [0x0A].intercalate (commits.map fun c => format.flatMap c.expand)

/-- `%H%x1f%h%x1f%an%x1f%ae%x1f%aI%x1f%P%x1f%s%x1f%b%x1e` -/
def listFormat : List Placeholder :=
  [.hash, .byte 0x1f, .shortHash, .byte 0x1f, .authorName, .byte 0x1f, .authorEmail, .byte 0x1f,
    .authorDate, .byte 0x1f, .parentHashes, .byte 0x1f, .subject, .byte 0x1f, .body, .byte 0x1e]

/-! ### What is read from it -/

structure CommitInfo where
  sha : String
  short : String
  message : String
  subject : String
  author : String
  email : String
  date : String
  parents : List String
  deriving DecidableEq

/-- The subject, and the body without white space at its ends. -/
def commitMessage (subject body : List Char) : String :=
  let body := trim body
  if body.isEmpty then String.ofList subject
  else String.ofList (subject ++ "\n\n".toList ++ body)

/-- A record of the output. Those with too few parts are skipped. -/
def parseRecord (record : List Char) : Option CommitInfo :=
  let record := trimMatches '\r' (trimMatches '\n' record)
  if record.isEmpty then none
  else
    match record.splitOn '\x1f' with
    | sha :: short :: author :: email :: date :: parents :: subject :: rest =>
      some
        { sha := String.ofList sha
          short := String.ofList short
          author := String.ofList author
          email := String.ofList email
          date := String.ofList date
          parents :=
            if parents.isEmpty then [] else (splitWhitespace parents).map String.ofList
          subject := String.ofList subject
          message := commitMessage subject (rest.head?.getD []) }
    | _ => none

def parseCommits (out : String) : List CommitInfo :=
  (out.toList.splitOn '\x1e').filterMap parseRecord

/-- The records of the commits that git lists. -/
def listCommits (git : GitLog) (commits : List GitCommit) : List CommitInfo :=
  parseCommits (String.ofList (Utf8.lossy (git.log listFormat commits)))

/-- A record has the fields of a commit. Its message is of their subject and body. -/
structure Shows (c : GitCommit) (r : CommitInfo) : Prop where
  sha : r.sha = c.id.text
  short : r.short = c.short.text
  author : strBytes r.author = c.author.bytes
  email : strBytes r.email = c.email.bytes
  date : r.date = c.date.text
  parents : r.parents = c.parents.map fun parent => parent.text
  subject : strBytes r.subject = c.subject.bytes
  message : ∃ body, strBytes body = c.body.bytes ∧
    r.message = commitMessage r.subject.toList body.toList

/-- One record for each commit, in their order. -/
def ShowsAll (git : GitLog) (commits : List GitCommit) : Prop :=
  List.Forall₂ Shows commits (listCommits git commits)

/-- A text in UTF-8 without the characters that the output is split at. -/
structure Unsplit (text : StoredText) : Prop where
  utf8 : ∃ s, strBytes s = text.bytes
  noField : (0x1f : UInt8) ∉ text.bytes
  noRecord : (0x1e : UInt8) ∉ text.bytes

/-! ### The output as text -/

section Output

variable {c : GitCommit} {text : StoredText}

/-- The characters of a text. -/
def StoredText.chars (text : StoredText) : List Char := Utf8.lossy text.bytes

theorem chars_of_strBytes {s : String} (h : strBytes s = text.bytes) : text.chars = s.toList := by
  rw [StoredText.chars, ← h, strBytes_eq_encode, Utf8.lossy_encode]

theorem encode_chars (h : ∃ s, strBytes s = text.bytes) : Utf8.encode text.chars = text.bytes := by
  obtain ⟨s, hs⟩ := h
  rw [chars_of_strBytes hs, ← strBytes_eq_encode, hs]

theorem Unsplit.not_mem (h : Unsplit text) : '\x1f' ∉ text.chars ∧ '\x1e' ∉ text.chars := by
  obtain ⟨s, hs⟩ := h.utf8
  obtain ⟨hfield, hrecord⟩ := And.intro h.noField h.noRecord
  rw [← hs, mem_strBytes_iff (by decide)] at hfield hrecord
  rw [chars_of_strBytes hs]
  exact ⟨hfield, hrecord⟩

/-- The fields of a commit before its body. -/
def GitCommit.front (c : GitCommit) : List (List Char) :=
  [c.id.text.toList, c.short.text.toList, c.author.chars, c.email.chars, c.date.text.toList,
    [' '].intercalate (c.parents.map fun parent => parent.text.toList), c.subject.chars]

theorem GitCommit.front_ne_nil (c : GitCommit) : c.front ≠ [] := List.cons_ne_nil _ _

/-- A commit in the output, without the mark after it. -/
def GitCommit.record (c : GitCommit) : List Char :=
  ['\x1f'].intercalate (c.front ++ [c.body.chars])

theorem forall_texts {P : StoredText → Prop} :
    (∀ text ∈ c.texts, P text) ↔ P c.author ∧ P c.email ∧ P c.subject ∧ P c.body := by
  simp [GitCommit.texts]

theorem flatMap_expand (h : ∀ text ∈ c.texts, ∃ s, strBytes s = text.bytes) :
    listFormat.flatMap c.expand = Utf8.encode (c.record ++ ['\x1e']) := by
  obtain ⟨hauthor, hemail, hsubject, hbody⟩ := forall_texts.mp h
  have hparents : Utf8.encode ([' '].intercalate (c.parents.map fun parent => parent.text.toList)) =
      [0x20].intercalate (c.parents.map fun parent => strBytes parent.text) := by
    rw [Utf8.encode_intercalate, List.map_map]
    congr 2
    funext parent
    exact (strBytes_eq_encode parent.text).symm
  have hfield : Utf8.encode ['\x1f'] = [0x1f] := rfl
  have hrecord : Utf8.encode ['\x1e'] = [0x1e] := rfl
  rw [GitCommit.record, Utf8.encode_append, Utf8.encode_intercalate, GitCommit.front]
  simp [listFormat, GitCommit.expand, encode_chars hauthor, encode_chars hemail,
    encode_chars hsubject, encode_chars hbody, hparents, hfield, hrecord, ← strBytes_eq_encode,
    List.intercalate_cons_cons]

/-- Git writes the records one after the other. -/
theorem lossy_log (git : GitLog) {commits : List GitCommit}
    (h : ∀ c ∈ commits, ∀ text ∈ c.texts, ∃ s, strBytes s = text.bytes) :
    Utf8.lossy (git.log listFormat commits) =
      ['\n'].intercalate (commits.map fun c => c.record ++ ['\x1e']) := by
  have hrecords : (commits.map fun c => listFormat.flatMap c.expand) =
      (commits.map fun c => c.record ++ ['\x1e']).map Utf8.encode := by
    rw [List.map_map]
    exact List.map_congr_left fun c hc => flatMap_expand (h c hc)
  have hnewline : [0x0A] = Utf8.encode ['\n'] := rfl
  rw [git.log_eq, hrecords, hnewline, ← Utf8.encode_intercalate, Utf8.lossy_encode]

end Output

/-! ### Records -/

section Records

variable {c : GitCommit} {text : StoredText} {cs : List Char}

theorem isWhitespace_of_printing {x : Char} (h : '!' ≤ x ∧ x ≤ '~') : isWhitespace x = false := by
  have hlow : 33 ≤ x.toNat := h.1
  have hhigh : x.toNat ≤ 126 := h.2
  simp [isWhitespace]
  omega

/-- A character that is not printing is not in a word. -/
theorem Word.not_mem {x : Char} (word : Word) (hx : ¬ ('!' ≤ x ∧ x ≤ '~')) :
    x ∉ word.text.toList := fun hmem => hx (word.printing x hmem)

/-- The end of a field is in none of them. -/
theorem not_mem_front (h : ∀ text ∈ c.texts, Unsplit text) :
    ∀ field ∈ c.front, '\x1f' ∉ field ∧ '\x1e' ∉ field := by
  obtain ⟨hauthor, hemail, hsubject, -⟩ := forall_texts.mp h
  have hword (word : Word) : '\x1f' ∉ word.text.toList ∧ '\x1e' ∉ word.text.toList :=
    ⟨word.not_mem (by decide), word.not_mem (by decide)⟩
  have hparents (x : Char) (hblank : x ≠ ' ') (hx : ¬ ('!' ≤ x ∧ x ≤ '~')) :
      x ∉ [' '].intercalate (c.parents.map fun parent => parent.text.toList) := by
    intro hmem
    rcases Paths.mem_intercalate hmem with hsep | ⟨field, hfield, hin⟩
    · exact hblank (List.mem_singleton.mp hsep)
    · obtain ⟨parent, -, rfl⟩ := List.mem_map.mp hfield
      exact parent.not_mem hx hin
  rw [GitCommit.front]
  simp only [List.forall_mem_cons]
  exact ⟨hword _, hword _, hauthor.not_mem, hemail.not_mem, hword _,
    ⟨hparents _ (by decide) (by decide), hparents _ (by decide) (by decide)⟩, hsubject.not_mem,
    List.forall_mem_nil _⟩

/-- What is read of a commit. -/
def GitCommit.info (c : GitCommit) : CommitInfo where
  sha := c.id.text
  short := c.short.text
  message := commitMessage c.subject.chars c.body.chars
  subject := String.ofList c.subject.chars
  author := String.ofList c.author.chars
  email := String.ofList c.email.chars
  date := c.date.text
  parents := c.parents.map fun parent => parent.text

theorem splitWhitespace_parents (parents : List ObjectName) :
    (splitWhitespace ([' '].intercalate (parents.map fun parent => parent.text.toList))).map
      String.ofList = parents.map fun parent => parent.text := by
  have hlist : (String.ofList ∘ fun parent : ObjectName => parent.text.toList) =
      fun parent => parent.text := by
    funext parent
    exact String.ofList_toList
  rw [splitWhitespace_intercalate (by decide), List.map_map, hlist]
  intro word hword
  obtain ⟨parent, -, rfl⟩ := List.mem_map.mp hword
  refine ⟨fun hempty => parent.ne_empty (String.toList_eq_nil_iff.mp hempty), fun x hx => ?_⟩
  exact isWhitespace_of_printing (parent.printing x hx)

/-- A record begins with the name of its commit. -/
theorem head_front (c : GitCommit) :
    ∃ x, (['\x1f'].intercalate c.front).head? = some x ∧ '!' ≤ x ∧ x ≤ '~' := by
  have hne : c.id.text.toList ≠ [] :=
    fun hempty => c.id.ne_empty (String.toList_eq_nil_iff.mp hempty)
  refine ⟨c.id.text.toList.head hne, ?_, c.id.printing _ (List.head_mem hne)⟩
  rw [GitCommit.front, List.intercalate_cons_cons, List.append_assoc,
    List.head?_append_of_ne_nil _ hne, List.head?_eq_some_head]

/-- The ends of a record are trimmed, and only the body can lose anything by that. -/
theorem trimMatches_record (c : GitCommit) : ∃ body, trim body = trim c.body.chars ∧
    body.Sublist c.body.chars ∧
    trimMatches '\r' (trimMatches '\n' c.record) = ['\x1f'].intercalate (c.front ++ [body]) := by
  obtain ⟨x, hhead, hx⟩ := head_front c
  have hne : ['\x1f'].intercalate c.front ≠ [] := by
    intro hempty
    rw [hempty] at hhead
    cases hhead
  have hstart (d : Char) (hd : ¬ ('!' ≤ d ∧ d ≤ '~')) :
      (['\x1f'].intercalate c.front).head? ≠ some d := by
    rw [hhead]
    rintro ⟨⟩
    exact hd hx
  refine ⟨(c.body.chars.rdropWhile (· == '\n')).rdropWhile (· == '\r'), ?_, ?_, ?_⟩
  · have hspace (d : Char) (hd : isWhitespace d = true) (x : Char) (hx : (x == d) = true) :
        isWhitespace x = true := by
      rw [beq_iff_eq.mp hx]
      exact hd
    rw [trim_rdropWhile (hspace '\r' (by decide)), trim_rdropWhile (hspace '\n' (by decide))]
  · exact (List.rdropWhile_prefix _ _).sublist.trans (List.rdropWhile_prefix _ _).sublist
  · rw [GitCommit.record, Paths.intercalate_concat _ c.front_ne_nil,
      trimMatches_append_cons (by decide) (hstart _ (by decide)) hne,
      trimMatches_append_cons (by decide) (hstart _ (by decide)) hne,
      Paths.intercalate_concat _ c.front_ne_nil]

/-- A record is read as what it is. -/
theorem parseRecord_record (h : ∀ text ∈ c.texts, Unsplit text) :
    parseRecord c.record = some c.info := by
  obtain ⟨body, htrim, hbody, hrecord⟩ := trimMatches_record c
  have hfields : ∀ field ∈ c.front ++ [body], '\x1f' ∉ field := by
    intro field hfield
    rcases List.mem_append.mp hfield with hfront | hlast
    · exact (not_mem_front h field hfront).1
    · obtain rfl := List.mem_singleton.mp hlast
      exact fun hmem => (forall_texts.mp h).2.2.2.not_mem.1 (hbody.subset hmem)
  have hmessage : commitMessage c.subject.chars body =
      commitMessage c.subject.chars c.body.chars := by
    rw [commitMessage, htrim, commitMessage]
  have hne : (['\x1f'].intercalate (c.front ++ [body])).isEmpty = false := by
    rw [Paths.intercalate_concat _ c.front_ne_nil, List.isEmpty_eq_false_iff]
    exact List.append_ne_nil_of_right_ne_nil _ (List.cons_ne_nil _ _)
  have hparents : (if ([' '].intercalate (c.parents.map fun parent => parent.text.toList)).isEmpty
        then [] else (splitWhitespace ([' '].intercalate
          (c.parents.map fun parent => parent.text.toList))).map String.ofList) =
      c.parents.map fun parent => parent.text := by
    rw [splitWhitespace_parents]
    split_ifs with hempty
    · rw [← splitWhitespace_parents, List.isEmpty_iff.mp hempty]
      rfl
    · rfl
  -- eight parts, the last of which is the body
  rw [parseRecord, hrecord, hne,
    List.splitOn_intercalate _ hfields (List.append_ne_nil_of_left_ne_nil c.front_ne_nil _)]
  simp only [Bool.false_eq_true, if_false, GitCommit.front, List.cons_append, List.nil_append,
    hparents, String.ofList_toList, List.head?_cons, Option.getD_some, hmessage]
  rfl

/-! ### Records of a list -/

/-- The records of an output. -/
def recordsOf (out : List Char) : List CommitInfo := (out.splitOn '\x1e').filterMap parseRecord

theorem parseCommits_ofList (out : List Char) :
    parseCommits (String.ofList out) = recordsOf out := by
  rw [parseCommits, String.toList_ofList, recordsOf]

theorem recordsOf_append (h : '\x1e' ∉ cs) (rest : List Char) :
    recordsOf (cs ++ '\x1e' :: rest) = (parseRecord cs).toList ++ recordsOf rest := by
  rw [recordsOf, List.splitOn_append_cons_self_of_not_mem h, List.filterMap_cons]
  cases parseRecord cs with
  | none => rfl
  | some r => rfl

theorem parseRecord_newline (cs : List Char) : parseRecord ('\n' :: cs) = parseRecord cs := by
  rw [parseRecord, trimMatches_cons_self, ← parseRecord]

/-- A newline before a record is trimmed with it. -/
theorem recordsOf_newline (out : List Char) : recordsOf ('\n' :: out) = recordsOf out := by
  have hne : ¬ ('\n' == '\x1e') = true := by decide
  rw [recordsOf, List.splitOn_cons_eq_if_modifyHead, if_neg hne, recordsOf]
  cases hparts : out.splitOn '\x1e' with
  | nil => rfl
  | cons first parts =>
    rw [List.modifyHead_cons, List.filterMap_cons, List.filterMap_cons, parseRecord_newline]

theorem record_not_mem (h : ∀ text ∈ c.texts, Unsplit text) : '\x1e' ∉ c.record := by
  intro hmem
  rcases Paths.mem_intercalate hmem with hsep | ⟨field, hfield, hin⟩
  · exact absurd (List.mem_singleton.mp hsep) (by decide)
  · rcases List.mem_append.mp hfield with hfront | hlast
    · exact (not_mem_front h field hfront).2 hin
    · obtain rfl := List.mem_singleton.mp hlast
      exact (forall_texts.mp h).2.2.2.not_mem.2 hin

/-- The records of commits whose texts are not split are theirs. -/
theorem listCommits_eq (git : GitLog) {commits : List GitCommit}
    (h : ∀ c ∈ commits, ∀ text ∈ c.texts, Unsplit text) :
    listCommits git commits = commits.map GitCommit.info := by
  rw [listCommits, parseCommits_ofList,
    lossy_log git fun c hc text htext => (h c hc text htext).utf8]
  induction commits with
  | nil => rfl
  | cons c commits ih =>
    have hc := h c List.mem_cons_self
    have hrest := ih fun c' hc' => h c' (List.mem_cons_of_mem _ hc')
    have hfirst (rest : List Char) : recordsOf (c.record ++ ['\x1e'] ++ rest) =
        c.info :: recordsOf rest := by
      rw [List.append_assoc, List.singleton_append, recordsOf_append (record_not_mem hc),
        parseRecord_record hc]
      rfl
    -- a newline stands before every record but the first
    cases commits with
    | nil =>
      have hlast := hfirst []
      rw [List.append_nil] at hlast
      rw [List.map_singleton, List.intercalate_singleton, hlast]
      rfl
    | cons next commits =>
      rw [List.map_cons, List.map_cons, List.intercalate_cons_cons, List.append_assoc, hfirst,
        List.singleton_append, recordsOf_newline]
      exact congrArg (List.cons c.info) hrest

theorem Unsplit.strBytes_chars (h : Unsplit text) :
    strBytes (String.ofList text.chars) = text.bytes := by
  rw [strBytes_eq_encode, String.toList_ofList, encode_chars h.utf8]

theorem shows_info (h : ∀ text ∈ c.texts, Unsplit text) : Shows c c.info := by
  obtain ⟨hauthor, hemail, hsubject, hbody⟩ := forall_texts.mp h
  refine ⟨rfl, rfl, hauthor.strBytes_chars, hemail.strBytes_chars, rfl, rfl,
    hsubject.strBytes_chars, String.ofList c.body.chars, hbody.strBytes_chars, ?_⟩
  rw [GitCommit.info, String.toList_ofList, String.toList_ofList]

/-! ### Texts in a record -/

/-- A text without the characters that an output is split at. -/
def Whole (cs : List Char) : Prop := '\x1f' ∉ cs ∧ '\x1e' ∉ cs

/-- Whatever the output was, no text of a record has them. -/
theorem whole_of_mem_recordsOf {out : List Char} {r : CommitInfo} (h : r ∈ recordsOf out) :
    Whole r.author.toList ∧ Whole r.email.toList ∧ Whole r.subject.toList ∧
      ∃ body, Whole body ∧ r.message = commitMessage r.subject.toList body := by
  obtain ⟨record, hrecord, hr⟩ := List.mem_filterMap.mp h
  have hwhole : ∀ part ∈ (trimMatches '\r' (trimMatches '\n' record)).splitOn '\x1f',
      Whole part := by
    intro part hpart
    refine ⟨Paths.not_mem_of_mem_splitOn hpart, fun hmem => ?_⟩
    have hin := (Paths.mem_of_mem_splitOn hpart hmem).1
    have hin' := (trimMatches_sublist _ _).subset ((trimMatches_sublist _ _).subset hin)
    exact Paths.not_mem_of_mem_splitOn hrecord hin'
  rw [parseRecord] at hr
  split_ifs at hr
  split at hr
  · next sha short author email date parents subject rest hparts =>
    rw [hparts] at hwhole
    simp only [List.forall_mem_cons] at hwhole
    obtain ⟨-, -, hauthor, hemail, -, -, hsubject, hrest⟩ := hwhole
    obtain rfl := Option.some.inj hr
    simp only [String.toList_ofList]
    refine ⟨hauthor, hemail, hsubject, rest.head?.getD [], ?_, rfl⟩
    cases rest with
    | nil => exact ⟨List.not_mem_nil, List.not_mem_nil⟩
    | cons body rest => exact hrest body List.mem_cons_self
  · cases hr

/-- A message tells the body, up to white space at its ends. -/
theorem trim_eq_of_commitMessage {subject body body' : List Char}
    (h : commitMessage subject body = commitMessage subject body') : trim body = trim body' := by
  have hlong (more : List Char) : subject ≠ subject ++ "\n\n".toList ++ more := by
    intro heq
    have hlength := congrArg List.length heq
    rw [List.length_append, List.length_append] at hlength
    have htwo : "\n\n".toList.length = 2 := rfl
    omega
  have hchars := congrArg String.toList h
  rw [commitMessage, commitMessage] at hchars
  split_ifs at hchars with hempty hempty'
  · rw [List.isEmpty_iff.mp hempty, List.isEmpty_iff.mp hempty']
  · simp only [String.toList_ofList] at hchars
    exact absurd hchars (hlong _)
  · simp only [String.toList_ofList] at hchars
    exact absurd hchars.symm (hlong _)
  · simp only [String.toList_ofList] at hchars
    exact List.append_cancel_left hchars

theorem unsplit_of_whole {s : String} (hs : strBytes s = text.bytes) (h : Whole s.toList) :
    Unsplit text := by
  refine ⟨⟨s, hs⟩, ?_, ?_⟩
  · rw [← hs, mem_strBytes_iff (by decide)]
    exact h.1
  · rw [← hs, mem_strBytes_iff (by decide)]
    exact h.2

/-- A commit that a record shows has none of them either. -/
theorem unsplit_of_shows {out : List Char} {r : CommitInfo} (hr : r ∈ recordsOf out)
    (h : Shows c r) : ∀ text ∈ c.texts, Unsplit text := by
  obtain ⟨hauthor, hemail, hsubject, body', hwhole, hmessage'⟩ := whole_of_mem_recordsOf hr
  obtain ⟨body, hbody, hmessage⟩ := h.message
  have htrim := trim_eq_of_commitMessage (hmessage.symm.trans hmessage')
  -- neither character is white space, so trimming the body would have kept it
  have hkept (x : Char) (hx : isWhitespace x = false) (hout : x ∉ body') : x ∉ body.toList := by
    intro hmem
    have hin := mem_trim hmem hx
    rw [htrim] at hin
    exact hout ((trim_sublist _).subset hin)
  refine forall_texts.mpr ⟨unsplit_of_whole h.author hauthor, unsplit_of_whole h.email hemail,
    unsplit_of_whole h.subject hsubject, unsplit_of_whole hbody ⟨?_, ?_⟩⟩
  · exact hkept _ (by decide) hwhole.1
  · exact hkept _ (by decide) hwhole.2

/-- Every commit of a list that is shown has a record. -/
theorem exists_of_forall₂ {commits : List GitCommit} {records : List CommitInfo}
    (h : List.Forall₂ Shows commits records) (hc : c ∈ commits) : ∃ r ∈ records, Shows c r := by
  induction h with
  | nil => cases hc
  | cons hfirst hrest ih =>
    rcases List.mem_cons.mp hc with rfl | hlater
    · exact ⟨_, List.mem_cons_self, hfirst⟩
    · obtain ⟨r, hr, hshows⟩ := ih hlater
      exact ⟨r, List.mem_cons_of_mem _ hr, hshows⟩

end Records

/-- Every commit has a record of its own fields, in order and no others, exactly where the texts of
all commits are UTF-8 and without the two control characters of the format. -/
theorem showsAll_iff (git : GitLog) (commits : List GitCommit) :
    ShowsAll git commits ↔ ∀ c ∈ commits, ∀ text ∈ c.texts, Unsplit text := by
  constructor
  · intro h
    rw [ShowsAll, listCommits, parseCommits_ofList] at h
    intro c hc
    obtain ⟨r, hr, hshows⟩ := exists_of_forall₂ h hc
    exact unsplit_of_shows hr hshows
  · intro h
    rw [ShowsAll, listCommits_eq git h, List.forall₂_map_right_iff, List.forall₂_same]
    exact fun c hc => shows_info (h c hc)

/-! ### A commit that forges another -/

/-- `git log` as it is documented. -/
def plainLog : GitLog where
  log format commits := [0x0A].intercalate (commits.map fun c => format.flatMap c.expand)
  log_eq _ _ := rfl

/-- A text of characters. -/
def StoredText.ofString (s : String) (h : '\x00' ∉ s.toList) : StoredText :=
  ⟨strBytes s, mt (mem_strBytes_iff (by decide)).mp h⟩

@[simp] theorem StoredText.chars_ofString {s : String} (h : '\x00' ∉ s.toList) :
    (StoredText.ofString s h).chars = s.toList := chars_of_strBytes rfl

theorem printing_of_all {s : String}
    (h : s.toList.all (fun x => decide ('!' ≤ x ∧ x ≤ '~')) = true) :
    ∀ x ∈ s.toList, '!' ≤ x ∧ x ≤ '~' :=
  fun x hx => of_decide_eq_true (List.all_eq_true.mp h x hx)

/-- The end of a record in its body, and the fields of another commit after it. -/
def forgingCommit : GitCommit where
  id := ⟨⟨"9c1185a5c5e9fc54612808977ee8f548b2258d31", printing_of_all (by decide)⟩, by decide⟩
  short := ⟨⟨"9c1185a", printing_of_all (by decide)⟩, by decide⟩
  author := .ofString "mallory" (by decide)
  email := .ofString "mallory@example.org" (by decide)
  date := ⟨"2026-01-02T03:04:05Z", printing_of_all (by decide)⟩
  parents := []
  subject := .ofString "Fix a typo" (by decide)
  body := .ofString ("in a comment\x1e0beec7b5ea3f0fdbc95d0dd47f3c5bc275da8a33\x1f0beec7b\x1fann" ++
    "\x1fann@example.org\x1f2026-01-01T00:00:00Z\x1f\x1fApprove the release") (by decide +kernel)

/-- Its record is followed by that of the other commit, which was never made. -/
theorem not_showsAll_forgingCommit : ¬ ShowsAll plainLog [forgingCommit] ∧
    (listCommits plainLog [forgingCommit]).map (fun r => (r.author, r.subject)) =
      [("mallory", "Fix a typo"), ("ann", "Approve the release")] := by
  have hutf8 : ∀ c ∈ [forgingCommit], ∀ text ∈ c.texts, ∃ s, strBytes s = text.bytes := by
    rw [List.forall_mem_singleton, forall_texts]
    exact ⟨⟨_, rfl⟩, ⟨_, rfl⟩, ⟨_, rfl⟩, ⟨_, rfl⟩⟩
  have hrecords : (listCommits plainLog [forgingCommit]).map (fun r => (r.author, r.subject)) =
      [("mallory", "Fix a typo"), ("ann", "Approve the release")] := by
    rw [listCommits, parseCommits_ofList, lossy_log _ hutf8, List.map_singleton,
      List.intercalate_singleton]
    simp only [GitCommit.record, GitCommit.front, forgingCommit, StoredText.chars_ofString]
    decide +kernel
  refine ⟨fun h => ?_, hrecords⟩
  have hlength := congrArg List.length hrecords
  rw [List.length_map, ← h.length_eq] at hlength
  cases hlength

end SafeHub.Browse
