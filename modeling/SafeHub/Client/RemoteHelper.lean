import SafeHub.Client.DefaultBranch
import SafeHub.Client.RefCommands
import SafeHub.Lib.Paths
import SafeHub.Lib.Trim
import SafeHub.Server.RepoPaths

/-!
# The remote helper

Git starts the helper with the address of a repository and then sends it one line after the other.
Fetches and pushes are collected until a blank line and carried out together.

## Main definitions

* `parseUrl` — the repository of an address
* `HelperSession`, `runHelper` — a session, line by line
* `runBlocks` — the same, block by block
* `HelperRequest`, `serveAll`, `readReplies` — what git asks for, and how it reads the answers

## Main results

* `parseUrl_address` — all ways to write the address of a repository give its name
* `runHelper_eq_runBlocks` — whatever the lines are, batches end at blank lines
* `readReplies_runHelper` — git reads the answers to its requests
-/

namespace SafeHub

open Paths Trim

/-! ### Addresses -/

/-- The name before and after the first slash. -/
def RepoName.parse (s : String) : Option RepoName :=
  match s.toList.dropWhile (· != '/') with
  | [] => none
  | _ :: name =>
    let owner := s.toList.takeWhile (· != '/')
    if owner = [] ∨ name = [] ∨ '/' ∈ name then none
    else some ⟨String.ofList owner, String.ofList name⟩

/-- The path of an address, with or without a host. -/
def urlPath (url : String) : String :=
  let u := ((((stripPrefix "sit://" url).or (stripPrefix "sit::" url)).or
    (stripPrefix "safehub://" url)).or (stripPrefix "safehub::" url)).getD url
  ((stripPrefix "http://" u).or (stripPrefix "https://" u)).getD u

/-- The path of a repository, if it is one. -/
def joinedPath (url owner name : String) : Except ClientError String :=
  let joined := owner ++ "/" ++ name
  if (RepoName.parse joined).isNone then .error (.other ("invalid sit url: " ++ url))
  else .ok joined

/-- The pieces of the path of an address. -/
def urlParts (url : String) : List String :=
  pieces (String.ofList (trimMatches '/' (urlPath url).toList))

/-- The repository of an address. -/
def parseUrl (url : String) : Except ClientError String :=
  match urlParts url with
  | [owner, name] => joinedPath url owner name
  | [_, owner, name] => joinedPath url owner name
  | _ => .error (.other ("invalid sit url: " ++ url))

/-- The parts of a name are not empty and have no slash. -/
structure RepoName.Valid (name : RepoName) : Prop where
  owner_ne : name.owner ≠ ""
  name_ne : name.name ≠ ""
  owner_noSlash : '/' ∉ name.owner.toList
  name_noSlash : '/' ∉ name.name.toList

/-- A way to write the address of a repository. -/
structure RepoAddress where
  scheme : String
  protocol : String
  host : Option String
  /-- The number of slashes at the end. -/
  slashes : ℕ
  scheme_mem : scheme ∈ ["sit://", "sit::", "safehub://", "safehub::"]
  protocol_mem : protocol ∈ ["", "http://", "https://"]
  host_noSlash : ∀ h ∈ host, '/' ∉ h.toList

/-- The path of an address. -/
def RepoAddress.path (address : RepoAddress) (name : RepoName) : List String :=
  address.host.toList ++ [name.owner, name.name]

def RepoAddress.text (address : RepoAddress) (name : RepoName) : String :=
  address.scheme ++ (address.protocol ++
    (Paths.text (address.path name) ++ String.ofList (List.replicate address.slashes '/')))

section Addresses

variable {name : RepoName} {front s : String}

/-- What is parsed is a valid name, and a valid name is parsed. -/
theorem RepoName.parse_eq_some_iff :
    RepoName.parse s = some name ↔ name.Valid ∧ s = name.owner ++ "/" ++ name.name := by
  have hsplit : s.toList.takeWhile (· != '/') ++ s.toList.dropWhile (· != '/') = s.toList :=
    List.takeWhile_append_dropWhile
  rw [RepoName.parse]
  constructor
  · intro h
    -- the text is parted at its first slash
    cases hdrop : s.toList.dropWhile (· != '/') with
    | nil =>
      rw [hdrop] at h
      cases h
    | cons c rest =>
      rw [hdrop] at h hsplit
      have hslash : c = '/' := by
        have hhead := List.head_dropWhile_not (p := (· != '/')) (l := s.toList) (by simp [hdrop])
        simpa [hdrop] using hhead
      subst hslash
      dsimp only at h
      split_ifs at h with hbad
      obtain rfl := Option.some.inj h
      rw [not_or, not_or] at hbad
      refine ⟨⟨?_, ?_, ?_, ?_⟩, ?_⟩
      · exact fun heq => hbad.1 (by simpa using congrArg String.toList heq)
      · exact fun heq => hbad.2.1 (by simpa using congrArg String.toList heq)
      · rw [String.toList_ofList]
        exact fun hmem => by simpa using List.mem_takeWhile_imp hmem
      · rw [String.toList_ofList]
        exact hbad.2.2
      · exact String.toList_inj.mp (hsplit.symm.trans (by simp))
  · rintro ⟨hvalid, rfl⟩
    have howner : ∀ c ∈ name.owner.toList, (c != '/') = true := fun c hc =>
      bne_iff_ne.mpr fun heq => hvalid.owner_noSlash (heq ▸ hc)
    have hlist : (name.owner ++ "/" ++ name.name).toList =
        name.owner.toList ++ '/' :: name.name.toList := by simp
    rw [hlist, List.dropWhile_append_of_pos howner, List.takeWhile_append_of_pos howner]
    simp [hvalid.owner_ne, hvalid.name_ne, hvalid.name_noSlash]

/-- What begins with something and two slashes has an empty piece. -/
theorem not_isPrefix_slashes (front : List Char) {cs rest : List Char} {c : Char}
    (hfront : '/' ∉ front)
    (hcs : '/' ∉ cs) (hc : c ≠ '/') : ¬ front ++ ['/', '/'] <+: cs ++ '/' :: c :: rest := by
  induction front generalizing cs with
  | nil =>
    cases cs with
    | nil =>
      rw [List.nil_append, List.nil_append, List.cons_prefix_cons, List.cons_prefix_cons]
      exact fun h => hc h.2.1.symm
    | cons d cs =>
      rw [List.nil_append, List.cons_append, List.cons_prefix_cons]
      exact fun h => hcs (h.1 ▸ List.mem_cons_self)
  | cons f front ih =>
    cases cs with
    | nil =>
      rw [List.cons_append, List.nil_append, List.cons_prefix_cons]
      exact fun h => hfront (h.1 ▸ List.mem_cons_self)
    | cons d cs =>
      rw [List.cons_append, List.cons_append, List.cons_prefix_cons]
      exact fun h => ih (fun hmem => hfront (List.mem_cons_of_mem _ hmem))
        (fun hmem => hcs (List.mem_cons_of_mem _ hmem)) h.2

theorem stripPrefix_eq_none (h : ¬ front.toList <+: s.toList) : stripPrefix front s = none := by
  rw [stripPrefix, if_neg (by rwa [List.isPrefixOf_iff_prefix])]

theorem stripPrefix_append (front s : String) : stripPrefix front (front ++ s) = some s := by
  simp [stripPrefix]

theorem exists_toList_text (part : String) (parts : List String) :
    ∃ rest, (Paths.text (part :: parts)).toList = part.toList ++ rest := by
  cases parts with
  | nil => exact ⟨[], by rw [toList_text_singleton, List.append_nil]⟩
  | cons next parts => exact ⟨_, toList_text_cons⟩

/-- A path that starts with two pieces of which the second is not empty has no protocol. -/
theorem stripPrefix_protocol {parts : List String} {first second : String} (hne : second ≠ "")
    (hfirst : '/' ∉ first.toList) (hsecond : '/' ∉ second.toList) (ending : String) :
    stripPrefix "http://" (Paths.text (first :: second :: parts) ++ ending) = none ∧
      stripPrefix "https://" (Paths.text (first :: second :: parts) ++ ending) = none := by
  obtain ⟨rest, hrest⟩ := exists_toList_text second parts
  obtain ⟨c, cs, hcs⟩ := List.exists_cons_of_ne_nil
    (fun hnil => hne (String.toList_eq_nil_iff.mp hnil) : second.toList ≠ [])
  have hc : c ≠ '/' := fun heq => hsecond (hcs ▸ heq ▸ List.mem_cons_self)
  have hlist : (Paths.text (first :: second :: parts) ++ ending).toList =
      first.toList ++ '/' :: c :: (cs ++ (rest ++ ending.toList)) := by
    rw [String.toList_append, toList_text_cons, hrest, hcs]
    simp
  constructor
  · refine stripPrefix_eq_none ?_
    rw [hlist]
    exact not_isPrefix_slashes "http:".toList (by decide) hfirst hc
  · refine stripPrefix_eq_none ?_
    rw [hlist]
    exact not_isPrefix_slashes "https:".toList (by decide) hfirst hc

/-- The path of an address, with the slashes after it. -/
theorem urlPath_text (address : RepoAddress) (hvalid : name.Valid) :
    urlPath (address.text name) =
      Paths.text (address.path name) ++ String.ofList (List.replicate address.slashes '/') := by
  have hplain : stripPrefix "http://" (Paths.text (address.path name) ++
        String.ofList (List.replicate address.slashes '/')) = none ∧
      stripPrefix "https://" (Paths.text (address.path name) ++
        String.ofList (List.replicate address.slashes '/')) = none := by
    rw [RepoAddress.path]
    cases hhost : address.host with
    | none =>
      exact stripPrefix_protocol hvalid.name_ne hvalid.owner_noSlash hvalid.name_noSlash _
    | some host =>
      exact stripPrefix_protocol hvalid.owner_ne (address.host_noSlash host hhost)
        hvalid.owner_noSlash _
  rw [urlPath, RepoAddress.text]
  generalize Paths.text (address.path name) ++
    String.ofList (List.replicate address.slashes '/') = rest at hplain ⊢
  -- the schemes do not begin alike, so only the one in front is taken off
  have hscheme : ∀ s, ((((stripPrefix "sit://" (address.scheme ++ s)).or
      (stripPrefix "sit::" (address.scheme ++ s))).or
      (stripPrefix "safehub://" (address.scheme ++ s))).or
      (stripPrefix "safehub::" (address.scheme ++ s))).getD (address.scheme ++ s) = s := by
    intro s
    have hmem := address.scheme_mem
    simp only [List.mem_cons, List.not_mem_nil, or_false] at hmem
    rcases hmem with h | h | h | h <;> rw [h] <;> simp [stripPrefix]
  have hprotocol : ((stripPrefix "http://" (address.protocol ++ rest)).or
      (stripPrefix "https://" (address.protocol ++ rest))).getD (address.protocol ++ rest) =
        rest := by
    have hmem := address.protocol_mem
    simp only [List.mem_cons, List.not_mem_nil, or_false] at hmem
    rcases hmem with h | h | h
    · rw [h, String.empty_append, hplain.1, hplain.2]
      rfl
    · rw [h]
      simp [stripPrefix]
    · rw [h]
      simp [stripPrefix]
  rw [hscheme, hprotocol]

/-- The pieces of a path with slashes after it. -/
theorem pieces_trimMatches (parts : List String) {first last : String}
    (hparts : ∀ part ∈ first :: (parts ++ [last]), '/' ∉ part.toList) (hfirst : first ≠ "")
    (hlast : last ≠ "") (slashes : ℕ) :
    pieces (String.ofList (trimMatches '/' (Paths.text (first :: (parts ++ [last])) ++
      String.ofList (List.replicate slashes '/')).toList)) = first :: (parts ++ [last]) := by
  have hnoSlash : ∀ (part : String) (c : Char), '/' ∉ part.toList → c ∈ part.toList → c ≠ '/' :=
    fun part c hpart hc heq => hpart (heq ▸ hc)
  have hchars : ∀ part : String, part ≠ "" → part.toList ≠ [] := fun part hne hnil =>
    hne (String.toList_eq_nil_iff.mp hnil)
  obtain ⟨rest, hrest⟩ := exists_toList_text first (parts ++ [last])
  obtain ⟨front, hfront⟩ : ∃ front, (Paths.text (first :: (parts ++ [last]))).toList =
      front ++ last.toList := by
    have hconcat := intercalate_concat '/' (List.cons_ne_nil first.toList (parts.map String.toList))
      last.toList
    refine ⟨['/'].intercalate (first.toList :: parts.map String.toList) ++ ['/'], ?_⟩
    rw [Paths.text, String.toList_ofList, List.map_cons, List.map_append, List.map_singleton,
      ← List.cons_append, hconcat, List.append_assoc]
    rfl
  rw [String.toList_append, String.toList_ofList, trimMatches_append_replicate,
    String.ofList_toList, pieces_text (List.cons_ne_nil _ _) hparts]
  · rw [hrest]
    exact fun hnil => hchars first hfirst (List.append_eq_nil_iff.mp hnil).1
  · rw [hrest, List.head?_append_of_ne_nil _ (hchars first hfirst)]
    intro hhead
    exact hnoSlash first '/' (hparts first List.mem_cons_self) (List.mem_of_mem_head? hhead) rfl
  · rw [hfront, List.getLast?_append_of_ne_nil _ (hchars last hlast)]
    intro hend
    exact hnoSlash last '/' (hparts last (by simp)) (List.mem_of_getLast? hend) rfl

theorem valid_of_joinedPath {url owner last path : String}
    (h : joinedPath url owner last = .ok path) :
    ∃ name : RepoName, name.Valid ∧ path = name.owner ++ "/" ++ name.name := by
  rw [joinedPath] at h
  cases hparse : RepoName.parse (owner ++ "/" ++ last) with
  | none =>
    rw [hparse] at h
    cases h
  | some name =>
    rw [hparse] at h
    obtain ⟨hvalid, htext⟩ := RepoName.parse_eq_some_iff.mp hparse
    exact ⟨name, hvalid, (Except.ok.inj h).symm.trans htext⟩

theorem joinedPath_of_valid (url : String) (hvalid : name.Valid) :
    joinedPath url name.owner name.name = .ok (name.owner ++ "/" ++ name.name) := by
  rw [joinedPath, RepoName.parse_eq_some_iff.mpr ⟨hvalid, rfl⟩]
  rfl

/-- Every way to write the address of a repository gives its name, and what is accepted is a valid
name. -/
theorem parseUrl_address :
    (∀ url path, parseUrl url = .ok path →
      ∃ name : RepoName, name.Valid ∧ path = name.owner ++ "/" ++ name.name) ∧
    ∀ (address : RepoAddress) (name : RepoName), name.Valid →
      parseUrl (address.text name) = .ok (name.owner ++ "/" ++ name.name) := by
  refine ⟨?_, ?_⟩
  · intro url path h
    unfold parseUrl at h
    generalize urlParts url = parts at h
    match parts, h with
    | [_, _], h => exact valid_of_joinedPath h
    | [_, _, _], h => exact valid_of_joinedPath h
  · intro address name hvalid
    -- a host that is given is one more piece in front, and it is dropped
    have hparts : urlParts (address.text name) = [name.owner, name.name] ∨
        ∃ host, urlParts (address.text name) = [host, name.owner, name.name] := by
      rw [urlParts, urlPath_text address hvalid, RepoAddress.path]
      cases hhost : address.host with
      | none =>
        left
        exact pieces_trimMatches [] (by simp [hvalid.owner_noSlash, hvalid.name_noSlash])
          hvalid.owner_ne hvalid.name_ne _
      | some host =>
        have hhostSlash := address.host_noSlash host hhost
        by_cases hempty : host = ""
        · -- the slash after an empty host is one at the start
          left
          subst hempty
          have hslash : (Paths.text ["", name.owner, name.name] ++
              String.ofList (List.replicate address.slashes '/')).toList =
                '/' :: (Paths.text [name.owner, name.name] ++
                  String.ofList (List.replicate address.slashes '/')).toList := by
            rw [String.toList_append, toList_text_cons]
            simp
          rw [Option.toList_some, List.singleton_append, hslash, trimMatches_cons_self]
          exact pieces_trimMatches []
            (by simp [hvalid.owner_noSlash, hvalid.name_noSlash]) hvalid.owner_ne hvalid.name_ne _
        · right
          exact ⟨host, pieces_trimMatches [name.owner]
            (by simp [hhostSlash, hvalid.owner_noSlash, hvalid.name_noSlash]) hempty
            hvalid.name_ne _⟩
    unfold parseUrl
    rcases hparts with hparts | ⟨host, hparts⟩
    · rw [hparts]
      exact joinedPath_of_valid _ hvalid
    · rw [hparts]
      exact joinedPath_of_valid _ hvalid

end Addresses

/-! ### A session -/

/-- What the helper can do for git, and what this changes. -/
structure HelperActions (W : Type) where
  listRefs : W → List String × W
  doFetch : W → Except String Unit × W
  doPush : String → W → Except String String × W

/-- A session under way. -/
structure HelperSession (W : Type) where
  pendingFetch : List (String × String)
  pendingPush : List String
  /-- The lines written. -/
  stdout : List String
  world : W

section Session

variable {W : Type} (actions : HelperActions W)

/-- The commit and the name of a line that asks for a fetch. -/
def fetchSpec (line : String) : Option (String × String) :=
  (stripPrefix "fetch " line).map fun rest =>
    let cs := rest.toList
    (String.ofList (cs.takeWhile (· != ' ')), String.ofList (cs.dropWhile (· != ' ')).tail)

/-- The refspec of a line that asks for a push. -/
def pushSpec (line : String) : Option String := stripPrefix "push " line

/-- The line that answers a push. -/
def pushLine (spec : String) : Except String String → String
  | .ok dst => "ok " ++ dst
  | .error e =>
    let dst := ((spec.toList.splitOn ':')[1]?.map String.ofList).getD spec
    "error " ++ dst ++ " " ++ e

/-- Carry out pushes, one after the other. -/
def drainPush : List String → W → List String × W
  | [], world => ([], world)
  | spec :: specs, world =>
    let (result, world) := actions.doPush spec world
    let (lines, world) := drainPush specs world
    (pushLine spec result :: lines, world)

/-- Carry out the fetches that are pending, all at once. -/
def HelperSession.finishFetch (session : HelperSession W) :
    Except String Unit × HelperSession W :=
  if session.pendingFetch = [] then (.ok (), session)
  else
    match actions.doFetch session.world with
    | (.error e, world) => (.error e, { session with world := world })
    | (.ok (), world) =>
      (.ok (), { session with
        pendingFetch := [], stdout := session.stdout ++ [""], world := world })

/-- Carry out the pushes that are pending, in order. -/
def HelperSession.finishPush (session : HelperSession W) : HelperSession W :=
  if session.pendingPush = [] then session
  else
    let (lines, world) := drainPush actions session.pendingPush session.world
    { session with pendingPush := [], stdout := session.stdout ++ (lines ++ [""]), world := world }

/-- Read a line. -/
def HelperSession.step (session : HelperSession W) (line : String) :
    Except String Unit × HelperSession W :=
  if line = "" then
    -- a fetch that fails ends the session, with the pushes undone
    match session.finishFetch actions with
    | (.error e, session) => (.error e, session)
    | (.ok (), session) => (.ok (), session.finishPush actions)
  else if line = "capabilities" then
    (.ok (), { session with stdout := session.stdout ++ ["fetch", "push", "option", ""] })
  else if (stripPrefix "option " line).isSome then
    (.ok (), { session with stdout := session.stdout ++ ["ok"] })
  else if line = "list" ∨ line = "list for-push" then
    let (lines, world) := actions.listRefs session.world
    (.ok (), { session with stdout := session.stdout ++ (lines ++ [""]), world := world })
  else
    match fetchSpec line with
    | some wanted => (.ok (), { session with pendingFetch := session.pendingFetch ++ [wanted] })
    | none =>
      match pushSpec line with
      | some spec => (.ok (), { session with pendingPush := session.pendingPush ++ [spec] })
      | none => (.ok (), session)

/-- Read lines until they end, or a fetch fails. -/
def runHelperFrom : List String → HelperSession W → Except String Unit × HelperSession W
  | [], session => (.ok (), session)
  | line :: lines, session =>
    match session.step actions line with
    | (.error e, session) => (.error e, session)
    | (.ok (), session) => runHelperFrom lines session

/-- How a session ends, what it writes, and what it leaves. -/
abbrev HelperOutcome (W : Type) := Except String Unit × List String × W

def HelperSession.outcome (ended : Except String Unit × HelperSession W) : HelperOutcome W :=
  (ended.1, ended.2.stdout, ended.2.world)

def runHelper (lines : List String) (world : W) : HelperOutcome W :=
  HelperSession.outcome (runHelperFrom actions lines ⟨[], [], [], world⟩)

/-! ### Block by block -/

/-- What is answered at once. -/
def lineReply (line : String) (world : W) : List String × W :=
  if line = "capabilities" then (["fetch", "push", "option", ""], world)
  else if (stripPrefix "option " line).isSome then (["ok"], world)
  else if line = "list" ∨ line = "list for-push" then
    let (lines, world) := actions.listRefs world
    (lines ++ [""], world)
  else ([], world)

def blockReply : List String → W → List String × W
  | [], world => ([], world)
  | line :: lines, world =>
    let (reply, world) := lineReply actions line world
    let (replies, world) := blockReply lines world
    (reply ++ replies, world)

/-- What is answered to the fetches of a block. -/
def fetchReply (wanted : List (String × String)) (world : W) :
    Except String (List String) × W :=
  if wanted = [] then (.ok [], world)
  else Prod.map (Except.map fun _ => [""]) id (actions.doFetch world)

/-- What is answered to the pushes of a block. -/
def pushReply (specs : List String) (world : W) : List String × W :=
  if specs = [] then ([], world)
  else Prod.map (· ++ [""]) id (drainPush actions specs world)

/-- Blocks of lines, each but the last one with a blank line after it. The last one starts no
fetch and no push. -/
def runBlocks : List (List String) → W → HelperOutcome W
  | [], world => (.ok (), [], world)
  | [block], world =>
    let (lines, world) := blockReply actions block world
    (.ok (), lines, world)
  | block :: next :: blocks, world =>
    let (lines, world) := blockReply actions block world
    match fetchReply actions (block.filterMap fetchSpec) world with
    | (.error e, world) => (.error e, lines, world)
    | (.ok fetched, world) =>
      let (pushed, world) := pushReply actions (block.filterMap pushSpec) world
      let (result, replies, world) := runBlocks (next :: blocks) world
      (result, lines ++ (fetched ++ (pushed ++ replies)), world)

/-- The same, with what is pending from before. -/
def runBlocksFrom (wanted : List (String × String)) (specs : List String) :
    List (List String) → W → HelperOutcome W
  | [], world => (.ok (), [], world)
  | [block], world =>
    let (lines, world) := blockReply actions block world
    (.ok (), lines, world)
  | block :: next :: blocks, world =>
    let (lines, world) := blockReply actions block world
    match fetchReply actions (wanted ++ block.filterMap fetchSpec) world with
    | (.error e, world) => (.error e, lines, world)
    | (.ok fetched, world) =>
      let (pushed, world) := pushReply actions (specs ++ block.filterMap pushSpec) world
      let (result, replies, world) := runBlocks actions (next :: blocks) world
      (result, lines ++ (fetched ++ (pushed ++ replies)), world)

theorem runBlocksFrom_nil (blocks : List (List String)) (world : W) :
    runBlocksFrom actions [] [] blocks world = runBlocks actions blocks world := by
  cases blocks with
  | nil => rfl
  | cons block blocks => cases blocks <;> rfl

/-- The lines written before stay in front. -/
def writtenAfter (stdout : List String) (outcome : HelperOutcome W) : HelperOutcome W :=
  (outcome.1, stdout ++ outcome.2.1, outcome.2.2)

variable {actions} {line front : String} {world : W}

theorem stripPrefix_eq_none_of_head (hne : front.toList.head?.isSome)
    (h : line.toList.head? ≠ front.toList.head?) : stripPrefix front line = none := by
  rw [stripPrefix]
  cases hfront : front.toList with
  | nil => simp [hfront] at hne
  | cons c cs =>
    cases hline : line.toList with
    | nil => rfl
    | cons d ds =>
      have hcd : c ≠ d := by
        rintro rfl
        exact h (by rw [hfront, hline]; rfl)
      simp [List.isPrefixOf, hcd]

theorem head_of_stripPrefix (h : (stripPrefix front line).isSome)
    (hne : front.toList.head?.isSome) :
    line.toList.head? = front.toList.head? := by
  by_contra hhead
  rw [stripPrefix_eq_none_of_head hne hhead] at h
  cases h

variable (line) in
/-- What a line asks for is told by its first character, unless it is a capability or a list. -/
theorem specs_eq_none (h : line.toList.head? ≠ some 'f' ∧ line.toList.head? ≠ some 'p') :
    fetchSpec line = none ∧ pushSpec line = none := by
  rw [fetchSpec, pushSpec, stripPrefix_eq_none_of_head rfl h.1,
    stripPrefix_eq_none_of_head rfl h.2]
  exact ⟨rfl, rfl⟩

/-- A line that is not blank is answered at once or waits. -/
theorem step_of_ne (session : HelperSession W) (hline : line ≠ "") :
    session.step actions line =
      (.ok (), {
        pendingFetch := session.pendingFetch ++ (fetchSpec line).toList
        pendingPush := session.pendingPush ++ (pushSpec line).toList
        stdout := session.stdout ++ (lineReply actions line session.world).1
        world := (lineReply actions line session.world).2 }) := by
  rw [HelperSession.step, if_neg hline, lineReply]
  split_ifs with hcapabilities hoption hlist
  · subst hcapabilities
    obtain ⟨hfetch, hpush⟩ := specs_eq_none "capabilities" (by decide)
    simp [hfetch, hpush]
  · have hhead := head_of_stripPrefix hoption rfl
    obtain ⟨hfetch, hpush⟩ := specs_eq_none line (by rw [hhead]; decide)
    simp [hfetch, hpush]
  · have hhead : line.toList.head? = some 'l' := by rcases hlist with rfl | rfl <;> rfl
    obtain ⟨hfetch, hpush⟩ := specs_eq_none line (by rw [hhead]; decide)
    simp [hfetch, hpush]
  · cases hfetch : fetchSpec line with
    | some wanted =>
      have hprefix : (stripPrefix "fetch " line).isSome := by
        rw [fetchSpec] at hfetch
        rw [← Option.isSome_map, hfetch]
        rfl
      have hpush : pushSpec line = none := stripPrefix_eq_none_of_head rfl
        (by rw [head_of_stripPrefix hprefix rfl]; decide)
      simp [hpush]
    | none =>
      cases pushSpec line <;> simp

/-- A line that is not blank belongs to the first block. -/
theorem runBlocksFrom_cons (wanted : List (String × String)) (specs : List String)
    (block : List String) (blocks : List (List String)) (world : W) :
    runBlocksFrom actions wanted specs ((line :: block) :: blocks) world =
      writtenAfter (lineReply actions line world).1
        (runBlocksFrom actions (wanted ++ (fetchSpec line).toList)
          (specs ++ (pushSpec line).toList) (block :: blocks)
          (lineReply actions line world).2) := by
  have hfetch : (line :: block).filterMap fetchSpec =
      (fetchSpec line).toList ++ block.filterMap fetchSpec := by
    rw [List.filterMap_cons]
    cases fetchSpec line <;> rfl
  have hpush : (line :: block).filterMap pushSpec =
      (pushSpec line).toList ++ block.filterMap pushSpec := by
    rw [List.filterMap_cons]
    cases pushSpec line <;> rfl
  cases blocks with
  | nil => rfl
  | cons next blocks =>
    rw [runBlocksFrom, runBlocksFrom, hfetch, hpush, ← List.append_assoc, ← List.append_assoc,
      blockReply]
    dsimp only
    rcases fetchReply actions (wanted ++ (fetchSpec line).toList ++ block.filterMap fetchSpec)
      (blockReply actions block (lineReply actions line world).2).2 with ⟨e | fetched, world'⟩
    · rfl
    · simp [writtenAfter]

/-- A blank line ends the first block. -/
theorem runBlocksFrom_nil_cons (wanted : List (String × String)) (specs : List String)
    (block : List String) (blocks : List (List String)) (world : W) :
    runBlocksFrom actions wanted specs ([] :: block :: blocks) world =
      match fetchReply actions wanted world with
      | (.error e, world) => (.error e, [], world)
      | (.ok fetched, world) =>
        writtenAfter (fetched ++ (pushReply actions specs world).1)
          (runBlocks actions (block :: blocks) (pushReply actions specs world).2) := by
  rw [runBlocksFrom, blockReply, List.filterMap_nil, List.filterMap_nil, List.append_nil,
    List.append_nil]
  dsimp only
  rcases fetchReply actions wanted world with ⟨e | fetched, world'⟩
  · rfl
  · simp [writtenAfter]

theorem writtenAfter_append (stdout more : List String) (outcome : HelperOutcome W) :
    writtenAfter (stdout ++ more) outcome = writtenAfter stdout (writtenAfter more outcome) := by
  simp [writtenAfter]

theorem finishFetch_eq (session : HelperSession W) : session.finishFetch actions =
    match fetchReply actions session.pendingFetch session.world with
    | (.error e, world) => (.error e, { session with world := world })
    | (.ok fetched, world) =>
      (.ok (), { session with
        pendingFetch := [], stdout := session.stdout ++ fetched, world := world }) := by
  rw [HelperSession.finishFetch, fetchReply]
  by_cases hpending : session.pendingFetch = []
  · rw [if_pos hpending, if_pos hpending]
    cases session
    cases hpending
    simp
  · rw [if_neg hpending, if_neg hpending]
    rcases actions.doFetch session.world with ⟨e | _, world⟩ <;> rfl

theorem finishPush_eq (session : HelperSession W) : session.finishPush actions =
    { session with
      pendingPush := []
      stdout := session.stdout ++ (pushReply actions session.pendingPush session.world).1
      world := (pushReply actions session.pendingPush session.world).2 } := by
  rw [HelperSession.finishPush, pushReply]
  by_cases hpending : session.pendingPush = []
  · rw [if_pos hpending, if_pos hpending]
    cases session
    cases hpending
    simp
  · rw [if_neg hpending, if_neg hpending]
    rfl

/-- What is pending belongs to the first block. -/
theorem outcome_runHelperFrom (lines : List String) (session : HelperSession W) :
    HelperSession.outcome (runHelperFrom actions lines session) =
      writtenAfter session.stdout (runBlocksFrom actions session.pendingFetch session.pendingPush
        (lines.splitOn "") session.world) := by
  induction lines generalizing session with
  | nil => simp [runHelperFrom, runBlocksFrom, blockReply, writtenAfter, HelperSession.outcome]
  | cons line lines ih =>
    obtain ⟨block, blocks, hsplit⟩ := List.exists_cons_of_ne_nil (List.splitOn_ne_nil "" lines)
    rw [runHelperFrom, List.splitOn_cons_eq_if_modifyHead, hsplit]
    rw [hsplit] at ih
    by_cases hline : line = ""
    · subst hline
      rw [if_pos (by rfl), runBlocksFrom_nil_cons, HelperSession.step, if_pos rfl, finishFetch_eq]
      rcases fetchReply actions session.pendingFetch session.world with ⟨e | fetched, world⟩
      · simp [writtenAfter, HelperSession.outcome]
      · dsimp only
        rw [ih, finishPush_eq]
        dsimp only
        rw [runBlocksFrom_nil, List.append_assoc, writtenAfter_append]
    · rw [if_neg (by simpa using hline), step_of_ne session hline]
      dsimp only
      rw [ih, List.modifyHead_cons, runBlocksFrom_cons, ← writtenAfter_append]

/-- Whatever the lines are: what a block asks for at once is answered at once, its fetches are
carried out together at the blank line after it and then its pushes in their order, and what no
blank line follows is not carried out. -/
theorem runHelper_eq_runBlocks (actions : HelperActions W) (lines : List String) (world : W) :
    runHelper actions lines world = runBlocks actions (lines.splitOn "") world := by
  rw [runHelper, outcome_runHelperFrom, runBlocksFrom_nil]
  simp [writtenAfter]

end Session

/-! ### Requests and answers -/

/-- What git asks for. A batch is not empty. -/
inductive HelperRequest
  | capabilities
  | option (text : String)
  | list (forPush : Bool)
  | fetch (wanted : String × String) (more : List (String × String))
  | push (spec : String) (more : List String)

namespace HelperRequest

def fetchLine (wanted : String × String) : String :=
  "fetch " ++ (wanted.1 ++ " " ++ wanted.2)

/-- The lines that git sends. -/
def lines : HelperRequest → List String
  | .capabilities => ["capabilities"]
  | .option text => ["option " ++ text]
  | .list false => ["list"]
  | .list true => ["list for-push"]
  | .fetch wanted more => (wanted :: more).map fetchLine ++ [""]
  | .push spec more => (spec :: more).map ("push " ++ ·) ++ [""]

/-- The lines of an answer. All but that to an option end with a blank one. -/
def framed (request : HelperRequest) (answer : List String) : List String :=
  match request with
  | .option _ => answer
  | _ => answer ++ [""]

/-- How git reads an answer: the answer, and the lines after it. -/
def readReply (request : HelperRequest) (input : List String) :
    Option (List String × List String) :=
  match request, input with
  | .option _, line :: rest => some ([line], rest)
  | .option _, [] => none
  | _, input =>
    match input.dropWhile (· != "") with
    | _ :: rest => some (input.takeWhile (· != ""), rest)
    | [] => none

section Serve

variable {W : Type} (actions : HelperActions W)

/-- What a request gets, and what it changes. -/
def serve (request : HelperRequest) (world : W) : Except String (List String) × W :=
  match request with
  | .capabilities => (.ok ["fetch", "push", "option"], world)
  | .option _ => (.ok ["ok"], world)
  | .list _ => Prod.map .ok id (actions.listRefs world)
  | .fetch _ _ => Prod.map (Except.map fun _ => []) id (actions.doFetch world)
  | .push spec more => Prod.map .ok id (drainPush actions (spec :: more) world)

/-- Serve requests one after the other, up to a fetch that fails. -/
def serveAll : List HelperRequest → W → Except String Unit × List (List String) × W
  | [], world => (.ok (), [], world)
  | request :: requests, world =>
    match request.serve actions world with
    | (.error e, world) => (.error e, [], world)
    | (.ok answer, world) =>
      let (result, answers, world) := serveAll requests world
      (result, answer :: answers, world)

end Serve

/-- Git reads answers as long as they come. -/
def readReplies : List HelperRequest → List String → List (List String)
  | [], _ => []
  | request :: requests, input =>
    match request.readReply input with
    | some (answer, rest) => answer :: readReplies requests rest
    | none => []

end HelperRequest

/-- The lines of what is written: a text that is written may have several. -/
def writtenLines (stdout : List String) : List String :=
  stdout.flatMap fun text => (text.toList.splitOn '\n').map String.ofList

section Requests

open HelperRequest

variable {W : Type} {actions : HelperActions W}

theorem runHelperFrom_append (lines more : List String) (session : HelperSession W) :
    runHelperFrom actions (lines ++ more) session =
      match runHelperFrom actions lines session with
      | (.error e, session) => (.error e, session)
      | (.ok (), session) => runHelperFrom actions more session := by
  induction lines generalizing session with
  | nil => rfl
  | cons line lines ih =>
    rw [List.cons_append, runHelperFrom, runHelperFrom]
    rcases session.step actions line with ⟨e | _, session⟩
    · rfl
    · exact ih session

/-- Lines that are not blank are answered at once or wait. -/
theorem runHelperFrom_block {lines : List String} (hlines : "" ∉ lines)
    (session : HelperSession W) : runHelperFrom actions lines session =
      (.ok (), {
        pendingFetch := session.pendingFetch ++ lines.filterMap fetchSpec
        pendingPush := session.pendingPush ++ lines.filterMap pushSpec
        stdout := session.stdout ++ (blockReply actions lines session.world).1
        world := (blockReply actions lines session.world).2 }) := by
  induction lines generalizing session with
  | nil => simp [runHelperFrom, blockReply]
  | cons line lines ih =>
    rw [List.mem_cons, not_or] at hlines
    rw [runHelperFrom, step_of_ne session (Ne.symm hlines.1)]
    dsimp only
    rw [ih hlines.2, List.filterMap_cons, List.filterMap_cons, blockReply]
    cases fetchSpec line <;> cases pushSpec line <;> simp

theorem head_append {front : String} {c : Char} (h : front.toList.head? = some c) (s : String) :
    (front ++ s).toList.head? = some c := by
  cases hfront : front.toList with
  | nil => simp [hfront] at h
  | cons d ds =>
    rw [hfront] at h
    simpa [hfront] using h

theorem lineReply_of_head {line : String}
    (h : line.toList.head? = some 'f' ∨ line.toList.head? = some 'p') (world : W) :
    lineReply actions line world = ([], world) := by
  have hhead : ∀ s : String, s.toList.head? ≠ some 'f' ∧ s.toList.head? ≠ some 'p' → line ≠ s := by
    rintro s ⟨hf, hp⟩ rfl
    exact h.elim hf hp
  have hoption : stripPrefix "option " line = none :=
    stripPrefix_eq_none_of_head rfl (by rcases h with h | h <;> rw [h] <;> decide)
  rw [lineReply, if_neg (hhead _ (by decide)), hoption, if_neg (by simp),
    if_neg (not_or.mpr ⟨hhead _ (by decide), hhead _ (by decide)⟩)]

theorem blockReply_of_head {lines : List String}
    (h : ∀ line ∈ lines, line.toList.head? = some 'f' ∨ line.toList.head? = some 'p') (world : W) :
    blockReply actions lines world = ([], world) := by
  induction lines with
  | nil => rfl
  | cons line lines ih =>
    obtain ⟨hline, hlines⟩ := List.forall_mem_cons.mp h
    rw [blockReply, lineReply_of_head hline]
    dsimp only
    rw [ih hlines]
    rfl

/-- Nothing is pending. -/
def HelperSession.idle (stdout : List String) (world : W) : HelperSession W :=
  ⟨[], [], stdout, world⟩

section Batch

variable {stdout block : List String} {world : W}

/-- Collected lines and a blank one. -/
theorem runHelperFrom_batch
    (h : ∀ line ∈ block, line.toList.head? = some 'f' ∨ line.toList.head? = some 'p') :
    runHelperFrom actions (block ++ [""]) (.idle stdout world) =
      match fetchReply actions (block.filterMap fetchSpec) world with
      | (.error e, world) =>
        (.error e, ⟨block.filterMap fetchSpec, block.filterMap pushSpec, stdout, world⟩)
      | (.ok fetched, world) =>
        let pushed := pushReply actions (block.filterMap pushSpec) world
        (.ok (), .idle (stdout ++ (fetched ++ pushed.1)) pushed.2) := by
  have hblank : "" ∉ block := fun hmem => by rcases h "" hmem with hnone | hnone <;> cases hnone
  rw [runHelperFrom_append, runHelperFrom_block hblank, blockReply_of_head h]
  simp only [HelperSession.idle, List.nil_append, List.append_nil]
  rw [runHelperFrom, HelperSession.step, if_pos rfl, finishFetch_eq]
  dsimp only
  rcases fetchReply actions (block.filterMap fetchSpec) world with ⟨e | fetched, world'⟩
  · rfl
  · dsimp only
    rw [finishPush_eq, runHelperFrom, List.append_assoc]

end Batch

section Serve

variable {request : HelperRequest} {stdout answer : List String} {world world' : W}

theorem fetchSpec_fetch (wanted : String × String) :
    (fetchSpec (fetchLine wanted)).isSome := by
  rw [fetchSpec, fetchLine, stripPrefix_append]
  rfl

theorem pushSpec_of_head {line : String} (h : line.toList.head? = some 'f') :
    pushSpec line = none :=
  stripPrefix_eq_none_of_head rfl (by rw [h]; decide)

theorem fetchSpec_of_head {line : String} (h : line.toList.head? = some 'p') :
    fetchSpec line = none := by
  rw [fetchSpec, stripPrefix_eq_none_of_head rfl (by rw [h]; decide)]
  rfl

/-- The lines of a batch of fetches. -/
theorem runHelperFrom_fetch (wanted : String × String) (more : List (String × String)) :
    ∃ pending, pending ≠ [] ∧
      runHelperFrom actions (lines (.fetch wanted more)) (.idle stdout world) =
      match fetchReply actions pending world with
      | (.error e, world) => (.error e, ⟨pending, [], stdout, world⟩)
      | (.ok fetched, world) => (.ok (), .idle (stdout ++ fetched) world) := by
  have hhead : ∀ line ∈ (wanted :: more).map fetchLine, line.toList.head? = some 'f' := by
    intro line hmem
    obtain ⟨spec, -, rfl⟩ := List.mem_map.mp hmem
    exact head_append rfl _
  have hpush : ((wanted :: more).map fetchLine).filterMap pushSpec = [] := by
    rw [List.filterMap_eq_nil_iff]
    exact fun line hmem => pushSpec_of_head (hhead line hmem)
  refine ⟨((wanted :: more).map fetchLine).filterMap fetchSpec, ?_, ?_⟩
  · obtain ⟨spec, hspec⟩ := Option.isSome_iff_exists.mp (fetchSpec_fetch wanted)
    rw [List.map_cons, List.filterMap_cons, hspec]
    exact List.cons_ne_nil _ _
  · rw [lines, runHelperFrom_batch fun line hmem => .inl (hhead line hmem), hpush]
    simp only [pushReply, if_true, List.append_nil]

/-- The lines of a batch of pushes. -/
theorem runHelperFrom_push (spec : String) (more : List String) :
    runHelperFrom actions (lines (.push spec more)) (.idle stdout world) =
      (.ok (), .idle (stdout ++ (pushReply actions (spec :: more) world).1)
        (pushReply actions (spec :: more) world).2) := by
  have hhead : ∀ line ∈ (spec :: more).map ("push " ++ ·), line.toList.head? = some 'p' := by
    intro line hmem
    obtain ⟨spec, -, rfl⟩ := List.mem_map.mp hmem
    exact head_append rfl _
  have hfetch : ((spec :: more).map ("push " ++ ·)).filterMap fetchSpec = [] := by
    rw [List.filterMap_eq_nil_iff]
    exact fun line hmem => fetchSpec_of_head (hhead line hmem)
  have hpush : ((spec :: more).map ("push " ++ ·)).filterMap pushSpec = spec :: more := by
    rw [List.filterMap_map]
    have hspec : pushSpec ∘ ("push " ++ ·) = some := funext fun s => stripPrefix_append "push " s
    rw [hspec, List.filterMap_some]
  rw [lines, runHelperFrom_batch fun line hmem => .inr (hhead line hmem), hfetch, hpush]
  simp only [fetchReply, if_true, List.nil_append]

/-- A request that is served. -/
theorem runHelperFrom_of_serve (h : request.serve actions world = (.ok answer, world')) :
    runHelperFrom actions request.lines (.idle stdout world) =
      (.ok (), .idle (stdout ++ request.framed answer) world') := by
  cases request with
  | capabilities =>
    obtain ⟨hanswer, rfl⟩ := Prod.mk.inj h
    obtain rfl := Except.ok.inj hanswer
    obtain ⟨hfetch, hpush⟩ := specs_eq_none "capabilities" (by decide)
    rw [lines, runHelperFrom_block (by decide)]
    simp [hfetch, hpush, HelperSession.idle, framed, blockReply, lineReply]
  | option text =>
    obtain ⟨hanswer, rfl⟩ := Prod.mk.inj h
    obtain rfl := Except.ok.inj hanswer
    -- no other request starts with an `o`
    have hhead : ("option " ++ text).toList.head? = some 'o' := head_append rfl text
    have hne : ∀ s : String, s.toList.head? ≠ some 'o' → "option " ++ text ≠ s := by
      rintro s hs rfl
      exact hs hhead
    obtain ⟨hfetch, hpush⟩ := specs_eq_none ("option " ++ text) (by rw [hhead]; decide)
    rw [lines, runHelperFrom_block (by simp)]
    simp [hfetch, hpush, HelperSession.idle, framed, blockReply, lineReply,
      hne "capabilities" (by decide), stripPrefix_append]
  | list forPush =>
    obtain ⟨hanswer, rfl⟩ := Prod.mk.inj h
    obtain rfl := Except.ok.inj hanswer
    -- both forms of the listing get the same answer
    have hreply : ∀ line, line = "list" ∨ line = "list for-push" →
        runHelperFrom actions [line] (.idle stdout world) = (.ok (), .idle
          (stdout ++ ((actions.listRefs world).1 ++ [""])) (actions.listRefs world).2) := by
      rintro line hline
      have hne : line ≠ "capabilities" := by rcases hline with rfl | rfl <;> decide
      have hoption : stripPrefix "option " line = none := by
        rcases hline with rfl | rfl <;> exact stripPrefix_eq_none_of_head rfl (by decide)
      obtain ⟨hfetch, hpush⟩ := specs_eq_none line
        (by rcases hline with rfl | rfl <;> decide)
      rw [runHelperFrom_block (by rcases hline with rfl | rfl <;> decide)]
      simp [hfetch, hpush, HelperSession.idle, blockReply, lineReply, hne, hoption, hline]
    cases forPush
    · exact hreply _ (.inl rfl)
    · exact hreply _ (.inr rfl)
  | fetch wanted more =>
    obtain ⟨pending, hpending, hrun⟩ :=
      runHelperFrom_fetch wanted more
    rw [hrun, fetchReply, if_neg hpending]
    rw [serve] at h
    rcases hfetch : actions.doFetch world with ⟨e | _, world''⟩ <;> rw [hfetch] at h
    · cases (Prod.mk.inj h).1
    · obtain ⟨hanswer, rfl⟩ := Prod.mk.inj h
      obtain rfl := Except.ok.inj hanswer
      rfl
  | push spec more =>
    obtain ⟨hanswer, rfl⟩ := Prod.mk.inj h
    obtain rfl := Except.ok.inj hanswer
    rw [runHelperFrom_push, pushReply, if_neg (List.cons_ne_nil _ _)]
    rfl

/-- Only a batch of fetches may fail, and nothing is written then. -/
theorem outcome_of_serve {e : String} (h : request.serve actions world = (.error e, world'))
    (more : List String) :
    HelperSession.outcome (runHelperFrom actions (request.lines ++ more) (.idle stdout world)) =
      (.error e, stdout, world') := by
  rw [runHelperFrom_append]
  cases request with
  | fetch wanted more =>
    obtain ⟨pending, hpending, hrun⟩ :=
      runHelperFrom_fetch wanted more
    rw [hrun, fetchReply, if_neg hpending]
    rw [serve] at h
    rcases hfetch : actions.doFetch world with ⟨e' | _, world''⟩ <;> rw [hfetch] at h
    · obtain ⟨herror, rfl⟩ := Prod.mk.inj h
      obtain rfl := Except.error.inj herror
      rfl
    · cases (Prod.mk.inj h).1
  | _ => cases (Prod.mk.inj h).1

/-- A session for requests. -/
theorem outcome_requests (requests : List HelperRequest) :
    HelperSession.outcome (runHelperFrom actions (requests.flatMap lines) (.idle stdout world)) =
      (fun served : Except String Unit × List (List String) × W =>
        (served.1, stdout ++ ((requests.zip served.2.1).flatMap fun (request, answer) =>
          request.framed answer), served.2.2)) (serveAll actions requests world) := by
  induction requests generalizing stdout world with
  | nil => simp [runHelperFrom, HelperSession.outcome, serveAll, HelperSession.idle]
  | cons request requests ih =>
    rw [List.flatMap_cons, serveAll]
    rcases hserve : request.serve actions world with ⟨e | answer, world'⟩
    · rw [outcome_of_serve hserve]
      simp
    · rw [runHelperFrom_append, runHelperFrom_of_serve hserve]
      dsimp only
      rw [ih]
      simp

end Serve

/-! ### Reading the answers -/

/-- Git can read an answer. -/
def HelperRequest.Readable (request : HelperRequest) (answer : List String) : Prop :=
  match request with
  | .option _ => answer.length = 1
  | _ => "" ∉ answer

theorem readReply_framed {request : HelperRequest} {answer : List String}
    (h : request.Readable answer) (rest : List String) :
    request.readReply (request.framed answer ++ rest) = some (answer, rest) := by
  have hblank : "" ∉ answer → ∀ r : HelperRequest, (∀ text, r ≠ .option text) →
      r.readReply (answer ++ [""] ++ rest) = some (answer, rest) := by
    intro hnot r hr
    have htake : ∀ line ∈ answer, (line != "") = true := fun line hline =>
      bne_iff_ne.mpr fun heq => hnot (heq ▸ hline)
    rw [List.append_assoc, readReply]
    · rw [List.dropWhile_append_of_pos htake, List.takeWhile_append_of_pos htake]
      simp
    · exact fun text _ _ heq _ => hr text heq
    · exact fun text heq _ => hr text heq
  cases request with
  | option text =>
    obtain ⟨line, rfl⟩ := List.length_eq_one_iff.mp h
    rfl
  | _ => exact hblank h _ nofun

/-- Git reads the answers that are given. -/
theorem readReplies_framed {requests : List HelperRequest} {answers : List (List String)}
    (hlength : answers.length ≤ requests.length)
    (h : ∀ pair ∈ requests.zip answers, pair.1.Readable pair.2) :
    readReplies requests ((requests.zip answers).flatMap fun (request, answer) =>
      request.framed answer) = answers := by
  induction requests generalizing answers with
  | nil =>
    cases answers with
    | nil => rfl
    | cons answer answers => simp at hlength
  | cons request requests ih =>
    cases answers with
    | nil =>
      have hnone : request.readReply [] = none := by cases request <;> rfl
      rw [List.zip_nil_right, List.flatMap_nil, readReplies, hnone]
    | cons answer answers =>
      rw [List.zip_cons_cons, List.flatMap_cons, readReplies,
        readReply_framed (h (request, answer) List.mem_cons_self)]
      dsimp only
      rw [ih (Nat.le_of_succ_le_succ hlength)
        fun pair hpair => h pair (List.mem_cons_of_mem _ hpair)]

theorem mem_drainPush (specs : List String) {world : W} {line : String}
    (h : line ∈ (drainPush actions specs world).1) : line ≠ "" := by
  induction specs generalizing world with
  | nil => simp [drainPush] at h
  | cons spec specs ih =>
    rw [drainPush] at h
    rcases List.mem_cons.mp h with rfl | hmem
    · rintro heq
      have hempty := congrArg String.toList heq
      cases hpush : (actions.doPush spec world).1 <;> rw [hpush] at hempty <;>
        simp [pushLine] at hempty
    · exact ih hmem

/-- The answers of a helper whose listings have no blank lines. -/
theorem readable_of_serve (hlist : ∀ world, "" ∉ (actions.listRefs world).1)
    {request : HelperRequest} {answer : List String} {world world' : W}
    (h : request.serve actions world = (.ok answer, world')) : request.Readable answer := by
  obtain ⟨hanswer, -⟩ := Prod.mk.inj h
  cases request with
  | capabilities =>
    obtain rfl := Except.ok.inj hanswer
    exact (by decide : "" ∉ ["fetch", "push", "option"])
  | option text =>
    obtain rfl := Except.ok.inj hanswer
    rfl
  | list forPush =>
    obtain rfl := Except.ok.inj hanswer
    exact hlist world
  | fetch wanted more =>
    rcases hfetch : actions.doFetch world with ⟨e | _, world''⟩ <;>
      rw [serve, hfetch] at h <;> cases h
    exact List.not_mem_nil
  | push spec more =>
    obtain rfl := Except.ok.inj hanswer
    exact fun hmem => mem_drainPush (spec :: more) hmem rfl

theorem readable_of_serveAll (hlist : ∀ world, "" ∉ (actions.listRefs world).1)
    (requests : List HelperRequest) (world : W) :
    (serveAll actions requests world).2.1.length ≤ requests.length ∧
      ∀ pair ∈ requests.zip (serveAll actions requests world).2.1, pair.1.Readable pair.2 := by
  induction requests generalizing world with
  | nil => exact ⟨le_rfl, by simp⟩
  | cons request requests ih =>
    rw [serveAll]
    rcases hserve : request.serve actions world with ⟨e | answer, world'⟩
    · exact ⟨Nat.zero_le _, by simp⟩
    · obtain ⟨hlength, hreadable⟩ := ih world'
      refine ⟨Nat.succ_le_succ hlength, fun pair hpair => ?_⟩
      rcases List.mem_cons.mp hpair with rfl | hpair
      · exact readable_of_serve hlist hserve
      · exact hreadable pair hpair

theorem writtenLines_eq {stdout : List String} (h : ∀ text ∈ stdout, '\n' ∉ text.toList) :
    writtenLines stdout = stdout := by
  induction stdout with
  | nil => rfl
  | cons text stdout ih =>
    obtain ⟨htext, hrest⟩ := List.forall_mem_cons.mp h
    rw [writtenLines] at ih ⊢
    rw [List.flatMap_cons, ih hrest, List.splitOn_eq_singleton htext]
    simp

end Requests

/-! ### What the helper does -/

/-- The client, the host and git, as the helper finds them. -/
structure HelperEnv (D W : Type) where
  /-- The record of the repository, the login, and the keys of its epochs. -/
  device : W → Except ClientError (RefDevice D) × W
  fetchTip : RefDevice D → W → Except ClientError (Option (FetchResult D)) × W
  /-- Write the bundle down and let git fetch from it. That git refuses it is no error. -/
  importBundle : FetchResult D → W → Except ClientError Unit × W
  revParse : W → String → Except String String
  createBundle : W → String → Option Bytes
  /-- `push_bundle` -/
  pushBundle : RefCall → W → Except ClientError Unit × W
  /-- How an error is displayed. -/
  text : ClientError → String

/-- The refs of a tip and the target of its `HEAD`, one on a line. -/
def listLines (refs : EncryptedRefsMap) : List String :=
  (refs.refs.toList.map fun (name, oid) => oid ++ " " ++ name) ++
    match refs.head with
    | some sym =>
      match stripPrefix "ref: " sym with
      | some target => ["@" ++ target ++ " HEAD"]
      | none => []
    | none =>
      match refs.refs.toList.head? with
      | some (name, _) => ["@" ++ name ++ " HEAD"]
      | none => []

namespace HelperEnv

variable {D W : Type} (env : HelperEnv D W)

/-- The refs of the tip, and none where it cannot be read. -/
def listRefs (world : W) : List String × W :=
  match env.device world with
  | (.error _, world) => ([], world)
  | (.ok device, world) =>
    match env.fetchTip device world with
    | (.ok (some fetched), world) => (listLines fetched.refs, world)
    | (_, world) => ([], world)

/-- Import the bundle of the tip, whatever is wanted. -/
def doFetch (world : W) : Except ClientError Unit × W :=
  match env.device world with
  | (.error e, world) => (.error e, world)
  | (.ok device, world) =>
    match env.fetchTip device world with
    | (.error e, world) => (.error e, world)
    | (.ok none, world) => (.ok (), world)
    | (.ok (some fetched), world) => env.importBundle fetched world

/-- Push one refspec; the answer is its destination. -/
def doPush (spec : String) (world : W) : Except ClientError String × W :=
  match parseRefspec spec with
  | .error e => (.error e, world)
  | .ok (_, _, dst) =>
    match env.device world with
    | (.error e, world) => (.error e, world)
    | (.ok device, world) =>
      let (tip, world) := env.fetchTip device world
      match HelperPush.doPush ⟨device, spec, env.revParse world, env.createBundle world⟩ tip with
      | .error e => (.error e, world)
      | .ok call => Prod.map (Except.map fun _ => dst) id (env.pushBundle call world)

def actions : HelperActions W where
  listRefs := env.listRefs
  doFetch world := Prod.map (Except.mapError env.text) id (env.doFetch world)
  doPush spec world := Prod.map (Except.mapError env.text) id (env.doPush spec world)

end HelperEnv

/-! ### What git reads -/

section Reads

open HelperRequest

variable {D W : Type}

theorem mem_listLines {refs : EncryptedRefsMap} {line : String} (h : line ∈ listLines refs) :
    ' ' ∈ line.toList := by
  rw [listLines, List.mem_append] at h
  rcases h with h | h
  · obtain ⟨⟨name, oid⟩, -, rfl⟩ := List.mem_map.mp h
    simp
  · split at h
    · split at h
      · obtain rfl := List.mem_singleton.mp h
        simp
      · cases h
    · split at h
      · obtain rfl := List.mem_singleton.mp h
        simp
      · cases h

theorem HelperEnv.listRefs_readable (env : HelperEnv D W) (world : W) :
    "" ∉ (env.actions.listRefs world).1 := by
  intro hmem
  change "" ∈ (env.listRefs world).1 at hmem
  rw [HelperEnv.listRefs] at hmem
  split at hmem
  · cases hmem
  · split at hmem
    · cases mem_listLines hmem
    · cases hmem

/-- Git reads what its requests get, each answer where it expects it, if no text that is written
has a line break in it. -/
theorem readReplies_runHelper (env : HelperEnv D W) (requests : List HelperRequest) (world : W)
    (hbreak : ∀ text ∈ (runHelper env.actions (requests.flatMap lines) world).2.1,
      '\n' ∉ text.toList) :
    let ended := runHelper env.actions (requests.flatMap lines) world
    (ended.1, readReplies requests (writtenLines ended.2.1), ended.2.2) =
      serveAll env.actions requests world := by
  have hrun : runHelper env.actions (requests.flatMap lines) world = _ :=
    outcome_requests requests
  obtain ⟨hlength, hreadable⟩ :=
    readable_of_serveAll env.listRefs_readable requests world
  dsimp only
  rw [writtenLines_eq hbreak, hrun]
  dsimp only
  rw [List.nil_append, readReplies_framed hlength hreadable]

/-- A helper whose host keeps the refs of a tip, and whose git counts the bundles it is given. -/
def servedHelper : HelperEnv Bytes (RefMap × ℕ) where
  device world := (.ok ⟨Vector.replicate 32 0, deviceMaterial, deviceKeys, flatDraws⟩, world)
  fetchTip _ world :=
    let head : RefHead Bytes :=
      ⟨Vector.replicate 32 0, 1, [], [], [], [], 0, [], false, [], none⟩
    (.ok (some ⟨head, ⟨world.1, some "ref: refs/heads/main", "", []⟩, [1]⟩), world)
  importBundle _ world := (.ok (), world.1, world.2 + 1)
  revParse _ _ := .ok "c"
  createBundle _ _ := some [2]
  pushBundle call world := (.ok (), call.args.gitRefs, world.2)
  text _ := "no such ref"

/-- A session with a listing, a fetch of two refs, and a batch of a push and two deletions, the
second of which is refused. -/
theorem readReplies_servedHelper :
    let requests := [.capabilities, .option "verbosity 1", .list false,
      .fetch ("a", "refs/heads/main") [("b", "refs/heads/dev")], .list true,
      .push "main:main" [":dev", ":gone"]]
    let refs := ((∅ : RefMap).insert "refs/heads/main" "a").insert "refs/heads/dev" "b"
    let ended := runHelper servedHelper.actions (requests.flatMap lines) (refs, 0)
    (ended.1, readReplies requests (writtenLines ended.2.1), ended.2.2) =
        serveAll servedHelper.actions requests (refs, 0) ∧
      ended.2.2.1.toList = [("refs/heads/main", "c")] ∧ ended.2.2.2 = 1 := by
  intro requests refs ended
  exact ⟨readReplies_runHelper servedHelper requests (refs, 0) (by decide +kernel),
    by decide +kernel, by decide +kernel⟩

end Reads

end SafeHub
