import SafeHub.Lib.Run
import SafeHub.SGit.RootBinding

/-!
# Grants on an encrypted repository

An owner grants others to read and to write, and writers sign the versions they author. A reader
checks the owner's access file and the author's version under one and the same key, and decrypts
with a key derived from its own master key; what the owner wrapped for it is not used. So grants
work among members who hold the keys of the owner, and no others: an update that is accepted is
signed by a key that verifies under the owner's. A grant signs whatever the repository holds.

## Main definitions

* `Directory`, `GrantCall`, `grantStep` — members, and the calls on a shared repository
* `GrantsWork` — what grants are for
* `GrantMet` — calls by which they stay in use

## Main results

* `signed_of_pull_update` — who authored an update that is accepted
* `pull_share_iff` — what is read after a grant, whoever signed before
* `grantsWork_of_run` — grants work in every run whose calls meet the condition
-/

namespace SafeHub.SGit

open Run TreeMaps
open Std (ExtTreeMap)

/-- Members by their names. -/
structure Directory where
  member : String → Member
  uid_member (uid : String) : (member uid).uid = uid

/-- A repository with the last version that was written to it. -/
structure SharedRepo where
  repo : CtRepo
  latest : PlainTree

/-- The calls on a shared repository. -/
inductive GrantCall
  | share (recipientUid : String) (write : Bool) (nonce : Nonce)
  | update (author : String) (version : Version)

/-- The member that a call grants to write. -/
def GrantCall.writer? : GrantCall → Option String
  | .share recipientUid true _ => some recipientUid
  | _ => none

/-- The member that a call grants to read. -/
def GrantCall.reader? : GrantCall → Option String
  | .share recipientUid _ _ => some recipientUid
  | _ => none

/-- Who may write after some calls. -/
def writers (owner : String) (calls : List GrantCall) : List String :=
  owner :: calls.filterMap GrantCall.writer?

/-- Who may read after some calls. -/
def readers (owner : String) (calls : List GrantCall) : List String :=
  owner :: calls.filterMap GrantCall.reader?

section Grants

variable [SgitPrimitives]

/-- A call; an author has read the last version. -/
def grantStep (dir : Directory) (owner : String) (v : Variant) (s : SharedRepo) :
    GrantCall → Option SharedRepo
  | .share recipientUid write nonce =>
    some ⟨share (dir.member owner) s.repo recipientUid write nonce, s.latest⟩
  | .update author version =>
    match update (dir.member author) s.repo s.latest.files version.tree.files v version.nonces with
    | .ok (repo, _) => some ⟨repo, version.tree⟩
    | .error _ => none

/-- Writers can write what all readers read, readers can read, and nobody else can write. -/
structure GrantsWork (dir : Directory) (owner : String) (v : Variant) (calls : List GrantCall)
    (s : SharedRepo) : Prop where
  write : ∀ author ∈ writers owner calls, ∀ version : Version, ∃ out cost,
    update (dir.member author) s.repo s.latest.files version.tree.files v version.nonces =
        .ok (out, cost) ∧
      ∀ reader ∈ readers owner calls,
        pull (dir.member reader) out (dir.member owner).verifyingKey v = .ok version.tree.files
  read : ∀ reader ∈ readers owner calls,
    pull (dir.member reader) s.repo (dir.member owner).verifyingKey v = .ok s.latest.files
  refuse : ∀ author ∉ writers owner calls, ∀ (version : Version) (out : CtRepo) (cost : UpdateCost),
    update (dir.member author) s.repo s.latest.files version.tree.files v version.nonces =
        .ok (out, cost) →
      ∀ reader vk plain, pull (dir.member reader) out vk v ≠ .ok plain

/-- A grant to read goes to a member with the owner's key, one to write to a member with the
owner's signature, and an update comes from a writer. -/
def GrantMet (dir : Directory) (owner : String) (s : SharedRepo) : GrantCall → Prop
  | .share recipientUid write _ =>
    (dir.member recipientUid).keyFor s.repo.rid = (dir.member owner).keyFor s.repo.rid ∧
      (write = true →
        (dir.member recipientUid).verifyingKey = (dir.member owner).verifyingKey)
  | .update author _ => author ∈ s.repo.acs.write

/-! ### Signatures -/

theorem signedBy_encode_sign (m : Member) (message : Bytes) :
    SignedBy m.verifyingKey
      (SgitPrimitives.base64Encode (SgitPrimitives.sign m.signer message)) message :=
  ⟨_, SgitPrimitives.base64Decode_encode _, SgitPrimitives.verify_sign _ _⟩

/-- What an update leaves of a repository. -/
theorem update_eq_ok {m : Member} {repo out : CtRepo} {old new : PlainMap} {v : Variant}
    {nonces : String → FileNonces} {cost : UpdateCost}
    (h : update m repo old new v nonces = .ok (out, cost)) :
    ∃ files, out = { repo with files := files, tag := authorTag m repo.rid files repo.acs } := by
  obtain ⟨⟨files, cost⟩, -, hout⟩ := bind_eq_ok_iff.mp h
  cases hout
  exact ⟨_, rfl⟩

/-- An update that is accepted has an author among the writers, and both the author's signature
and the one of the access file verify under the reader's key for the author. -/
theorem signed_of_pull_update {m reader : Member} {repo out : CtRepo} {old new plain : PlainMap}
    {v v' : Variant} {nonces : String → FileNonces} {cost : UpdateCost} {vk : Bytes}
    (h : update m repo old new v nonces = .ok (out, cost))
    (hpull : pull reader out vk v' = .ok plain) :
    SignedBy vk repo.acs.sig (acsMessage repo.acs) ∧ m.uid ∈ repo.acs.write ∧
      SgitPrimitives.verify vk out.version.message
        (SgitPrimitives.sign m.signer out.version.message) = true := by
  obtain ⟨files, rfl⟩ := update_eq_ok h
  obtain ⟨hacs, hwriter, ⟨sig, hsig, hverify⟩, -⟩ := pull_eq_ok_iff.mp hpull
  refine ⟨hacs, hwriter, ?_⟩
  rw [authorTag, signRoot, SgitPrimitives.base64Decode_encode] at hsig
  exact Except.ok.inj hsig ▸ hverify

/-- After a grant every file is read, whoever signed the files before. -/
theorem pull_share_iff {m reader : Member} {repo : CtRepo} {uid : String} {write : Bool}
    {nonce : Nonce} {v : Variant} {plain : PlainMap} :
    pull reader (share m repo uid write nonce) m.verifyingKey v = .ok plain ↔
      m.uid ∈ (share m repo uid write nonce).acs.write ∧
        ∀ name : String, Option.Rel (fun f body => readFile (reader.keyFor repo.rid) v f = .ok body)
          repo.files[name]? plain[name]? := by
  rw [pull_eq_ok_iff]
  constructor
  · rintro ⟨-, hwriter, -, hfiles⟩
    exact ⟨hwriter, hfiles⟩
  · -- the grant itself makes both signatures that are checked
    rintro ⟨hwriter, hfiles⟩
    exact ⟨signedBy_encode_sign m _, hwriter, signedBy_encode_sign m _, hfiles⟩

theorem mem_write_share {m : Member} {repo : CtRepo} {uid : String} {write : Bool} {nonce : Nonce}
    {author : String} :
    author ∈ (share m repo uid write nonce).acs.write ↔
      author ∈ repo.acs.write ∨ write = true ∧ author = uid := by
  rw [share]
  dsimp only
  cases write with
  | false => simp
  | true =>
    by_cases hmem : uid ∈ repo.acs.write
    · simp only [List.contains_iff_mem.mpr hmem, Bool.not_true, Bool.and_false, Bool.false_eq_true,
        if_false, true_and]
      exact ⟨.inl, fun h => h.elim id fun heq => heq ▸ hmem⟩
    · simp [hmem]

/-! ### Runs -/

/-- What holds after calls that met the condition. -/
structure GrantInv (dir : Directory) (owner : String) (v : Variant) (rid : String)
    (calls : List GrantCall) (s : SharedRepo) : Prop where
  named : s.repo.rid = rid
  /-- The files hold the last version, under the key of the owner. -/
  files (name : String) : Option.Rel (Holds ((dir.member owner).keyFor rid) v)
    s.repo.files[name]? s.latest.files[name]?
  acs : SignedBy (dir.member owner).verifyingKey s.repo.acs.sig (acsMessage s.repo.acs)
  author : s.repo.tag.uid ∈ s.repo.acs.write
  tag : SignedBy (dir.member owner).verifyingKey s.repo.tag.sig s.repo.version.message
  listed (uid : String) : uid ∈ s.repo.acs.write ↔ uid ∈ writers owner calls
  signers : ∀ uid ∈ writers owner calls,
    (dir.member uid).keyFor rid = (dir.member owner).keyFor rid ∧
      (dir.member uid).verifyingKey = (dir.member owner).verifyingKey
  keys : ∀ uid ∈ readers owner calls, (dir.member uid).keyFor rid = (dir.member owner).keyFor rid

variable {dir : Directory} {owner rid : String} {v : Variant} {calls : List GrantCall}
variable {s : SharedRepo}

/-- The last version is read with the key of the owner. -/
theorem GrantInv.pull (h : GrantInv dir owner v rid calls s) {reader : Member}
    (hkey : reader.keyFor rid = (dir.member owner).keyFor rid) :
    SGit.pull reader s.repo (dir.member owner).verifyingKey v = .ok s.latest.files := by
  refine pull_eq_ok_iff.mpr ⟨h.acs, h.author, h.tag, fun name => ?_⟩
  rw [h.named, hkey]
  exact rel_imp (h.files name) fun _ _ => readFile_of_holds

/-- A new repository belongs to its owner. -/
theorem grantInv_init {first : Version} {repo : CtRepo}
    (hinit : init (dir.member owner) rid first.tree.files v first.nonces = .ok repo) :
    GrantInv dir owner v rid [] ⟨repo, first.tree⟩ := by
  obtain ⟨repo', hinit', hstores⟩ := stores_init first.nonces (dir.member owner) rid
    first.tree.files v
  obtain rfl := Except.ok.inj (hinit'.symm.trans hinit)
  have hrid : repo'.rid = rid := by
    cases hinit
    rfl
  have howner : writers owner [] = [owner] ∧ readers owner [] = [owner] := ⟨rfl, rfl⟩
  refine ⟨hrid, hrid ▸ hstores.files, ?_, ?_, ?_, ?_, ?_, ?_⟩
  · rw [hstores.acs]
    exact signedBy_encode_sign (dir.member owner) _
  · rw [hstores.acs, hstores.tag]
    exact List.mem_singleton_self _
  · rw [CtVersion.message, CtRepo.version, hstores.tag]
    exact signedBy_encode_sign (dir.member owner) _
  · intro uid
    rw [hstores.acs, howner.1, ownerAcs, dir.uid_member]
  · simp [howner.1]
  · simp [howner.2]

/-- A grant by the owner that meets the condition. -/
theorem GrantInv.share (h : GrantInv dir owner v rid calls s) {uid : String} {write : Bool}
    {nonce : Nonce} (hmet : GrantMet dir owner s (.share uid write nonce)) :
    GrantInv dir owner v rid (calls ++ [.share uid write nonce])
      ⟨SGit.share (dir.member owner) s.repo uid write nonce, s.latest⟩ := by
  obtain ⟨hkey, hsigner⟩ := hmet
  rw [h.named] at hkey
  have hwriters (author : String) : author ∈ writers owner (calls ++ [.share uid write nonce]) ↔
      author ∈ writers owner calls ∨ write = true ∧ author = uid := by
    cases write <;> simp [writers, GrantCall.writer?, or_assoc]
  have hreaders (reader : String) : reader ∈ readers owner (calls ++ [.share uid write nonce]) ↔
      reader ∈ readers owner calls ∨ reader = uid := by
    simp [readers, GrantCall.reader?, or_assoc]
  have howner : owner ∈ s.repo.acs.write := (h.listed owner).mpr List.mem_cons_self
  refine ⟨h.named, h.files, signedBy_encode_sign _ _, ?_, ?_, ?_, ?_, ?_⟩
  · refine mem_write_share.mpr (.inl ?_)
    rw [SGit.share, authorTag, dir.uid_member]
    exact howner
  · exact signedBy_encode_sign (dir.member owner) _
  · intro author
    rw [mem_write_share, h.listed, hwriters]
  · intro author hauthor
    rcases (hwriters author).mp hauthor with hold | ⟨hwrite, rfl⟩
    · exact h.signers author hold
    · exact ⟨hkey, hsigner hwrite⟩
  · intro reader hreader
    rcases (hreaders reader).mp hreader with hold | rfl
    · exact h.keys reader hold
    · exact hkey

/-- An update by a writer. -/
theorem GrantInv.exists_update (h : GrantInv dir owner v rid calls s) {author : String}
    (hauthor : author ∈ writers owner calls) (version : Version) :
    ∃ out cost, update (dir.member author) s.repo s.latest.files version.tree.files v
        version.nonces = .ok (out, cost) ∧
      GrantInv dir owner v rid (calls ++ [.update author version]) ⟨out, version.tree⟩ := by
  obtain ⟨hkey, hsigner⟩ := h.signers author hauthor
  have hfiles (name : String) : Option.Rel (Holds ((dir.member author).keyFor s.repo.rid) v)
      s.repo.files[name]? s.latest.files[name]? := by
    rw [h.named, hkey]
    exact h.files name
  obtain ⟨files, cost, hupdate, hholds⟩ :=
    exists_update_holds version.nonces hfiles version.tree
  rw [h.named, hkey] at hholds
  have hcalls : writers owner (calls ++ [.update author version]) = writers owner calls ∧
      readers owner (calls ++ [.update author version]) = readers owner calls := by
    simp [writers, readers, GrantCall.writer?, GrantCall.reader?]
  refine ⟨_, cost, hupdate, h.named, hholds, h.acs, ?_, ?_, ?_, ?_, ?_⟩
  · dsimp only
    rw [authorTag, dir.uid_member, h.listed]
    exact hauthor
  · -- the author's signature is checked under the owner's key
    rw [← hsigner]
    exact signedBy_encode_sign (dir.member author) _
  · intro uid
    rw [hcalls.1]
    exact h.listed uid
  · rw [hcalls.1]
    exact h.signers
  · rw [hcalls.2]
    exact h.keys

/-- Grants work where the invariant holds. -/
theorem GrantInv.grantsWork (h : GrantInv dir owner v rid calls s) :
    GrantsWork dir owner v calls s := by
  constructor
  · intro author hauthor version
    obtain ⟨out, cost, hupdate, hinv⟩ := h.exists_update hauthor version
    exact ⟨out, cost, hupdate, fun reader hreader => hinv.pull (h.keys reader hreader)⟩
  · exact fun reader hreader => h.pull (h.keys reader hreader)
  · intro author hauthor version out cost hupdate reader vk plain hpull
    obtain ⟨-, hwriter, -⟩ := signed_of_pull_update hupdate hpull
    rw [dir.uid_member, h.listed] at hwriter
    exact hauthor hwriter

/-- In every run of grants to members with the keys of the owner, and of updates by writers, all
calls succeed, and grants work after them. -/
theorem grantsWork_of_run {first : Version} {repo : CtRepo}
    (hinit : init (dir.member owner) rid first.tree.files v first.nonces = .ok repo)
    (h : Along (grantStep dir owner v) (GrantMet dir owner) ⟨repo, first.tree⟩ calls) :
    ∃ s, run (grantStep dir owner v) ⟨repo, first.tree⟩ calls = some s ∧
      GrantsWork dir owner v calls s := by
  suffices hinv : ∃ s, run (grantStep dir owner v) ⟨repo, first.tree⟩ calls = some s ∧
      GrantInv dir owner v rid calls s by
    obtain ⟨s, hrun, hs⟩ := hinv
    exact ⟨s, hrun, hs.grantsWork⟩
  -- the induction takes calls at the end of a run, as grants are counted from its start
  induction calls using List.reverseRecOn with
  | nil => exact ⟨_, rfl, grantInv_init hinit⟩
  | append_singleton calls call ih =>
    obtain ⟨s, hrun, hs⟩ := ih (along_append.mp h).1
    have hmet : GrantMet dir owner s call := h.of_append_cons hrun
    cases call with
    | share uid write nonce =>
      exact ⟨_, run_concat_eq_some.mpr ⟨s, hrun, rfl⟩, hs.share hmet⟩
    | update author version =>
      obtain ⟨out, cost, hupdate, hout⟩ := hs.exists_update ((hs.listed author).mp hmet) version
      refine ⟨_, run_concat_eq_some.mpr ⟨s, hrun, ?_⟩, hout⟩
      rw [grantStep, hupdate]

end Grants

/-! ### A grant to bob -/

section Sample

/-- The primitives above, with a key stream that depends on the key. -/
abbrev tintedPrimitives : SgitPrimitives :=
  { digestPrimitives with keystream := fun key _ _ => key.headD 0 }

attribute [local instance] tintedPrimitives

/-- Everyone has keys of their own. -/
def ownKeys : Directory where
  member uid := if uid = "alice" then ⟨uid, [1], [2]⟩ else ⟨uid, [7], [8]⟩
  uid_member uid := by split_ifs <;> rfl

/-- Everyone has the keys of alice. -/
def sharedKeys : Directory where
  member uid := ⟨uid, [1], [2]⟩
  uid_member _ := rfl

/-- A version of one file. -/
def oneFile (body : String) (h : body.utf8ByteSize < 2 ^ 63) : Version where
  tree :=
    { files := (∅ : PlainMap).insert "a" body
      fits := by
        intro name other hname
        rw [ExtTreeMap.getElem?_insert] at hname
        split_ifs at hname
        · exact Option.some.inj hname ▸ h
        · rw [ExtTreeMap.getElem?_empty] at hname
          cases hname }
  nonces := zeroNonces

def firstText : Version := oneFile "x" (by decide)

def nextText : Version := oneFile "y" (by decide)

def grantToBob : GrantCall := .share "bob" true (Vector.replicate 16 0)

/-- A signature verifies under its own key alone. -/
theorem eq_of_verify_sign {vk sk message : Bytes}
    (h : SgitPrimitives.verify vk message (SgitPrimitives.sign sk message) = true) : vk = sk :=
  List.append_cancel_right (eq_of_beq h)

/-- No key verifies what bob writes after the grant, and he reads something else. -/
theorem not_grantsWork_bob :
    ∃ repo s,
      init (ownKeys.member "alice") "r" firstText.tree.files .line firstText.nonces = .ok repo ∧
      run (grantStep ownKeys "alice" .line) ⟨repo, firstText.tree⟩ [grantToBob] = some s ∧
      (update (ownKeys.member "bob") s.repo s.latest.files nextText.tree.files .line
        nextText.nonces).toOption.isSome ∧
      (∀ out cost, update (ownKeys.member "bob") s.repo s.latest.files nextText.tree.files .line
          nextText.nonces = .ok (out, cost) →
        ∀ reader vk plain, pull (ownKeys.member reader) out vk .line ≠ .ok plain) ∧
      (pull (ownKeys.member "bob") s.repo (ownKeys.member "alice").verifyingKey .line).toOption.map
        ExtTreeMap.toList = some [("a", "~")] := by
  refine ⟨_, _, rfl, rfl, by decide +kernel, ?_, by decide +kernel⟩
  intro out cost hupdate reader vk plain hpull
  obtain ⟨⟨sig, hsig, hacs⟩, -, htag⟩ := signed_of_pull_update hupdate hpull
  -- the key would have to be the one of alice and the one of bob
  have halice : vk = [2] := by
    obtain rfl := Except.ok.inj ((SgitPrimitives.base64Decode_encode _).symm.trans hsig)
    exact eq_of_verify_sign hacs
  have hbob : vk = [8] := eq_of_verify_sign htag
  exact absurd (halice.symm.trans hbob) (by decide)

/-- Bob has the keys of alice, and writes. -/
theorem grantsWork_sample :
    ∃ repo s,
      run (grantStep sharedKeys "alice" .line) ⟨repo, firstText.tree⟩
        [grantToBob, .update "bob" nextText] = some s ∧
      GrantsWork sharedKeys "alice" .line [grantToBob, .update "bob" nextText] s := by
  have hinit : init (sharedKeys.member "alice") "r" firstText.tree.files .line firstText.nonces =
      .ok _ := rfl
  refine ⟨_, grantsWork_of_run hinit ⟨⟨rfl, fun _ => rfl⟩, fun t ht => ⟨?_, ?_⟩⟩⟩
  · obtain rfl := Option.some.inj ht
    exact mem_write_share.mpr (.inr ⟨rfl, rfl⟩)
  · exact fun _ _ => trivial

end Sample

end SafeHub.SGit
