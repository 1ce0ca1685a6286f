import SafeHub.Lib.Framing
import SafeHub.SGit.Command
import SafeHub.SGit.RootBinding

/-!
# Which key a reader trusts

The tag of a ciphertext repository names the key that its signature verifies under, and the
commands that read take that key. A host that signs a tree with a key of its own is therefore
believed about any tree that decrypts, and decryption checks nothing: files may be dropped, renamed
and cut short. Under the reader's own key, leaves that run a name and a text together bind no more
than what they spell.

## Main definitions

* `SignedTree` — a tree as it is signed, `SignedTree.Alike` — trees with one signed message
* `Accepts` — a command that reads does so
* `Tagged` — a tree as it is served with a tag
* `Unforgeable` — however a tree is tagged under a key, it is believed only if it was signed

## Main results

* `accepts_writeTag_iff` — any host is believed about exactly the trees that decrypt
* `unforgeable_iff` — for which keys and trees that is so
-/

namespace SafeHub.SGit

open HashTree TreeMaps
open Std (ExtTreeMap)

section Trust

variable [CommandPrimitives]

/-! ### Roots -/

/-- What is hashed for the leaves of a tree. -/
def treeTexts (tree : CtTree) : List Bytes :=
  ((tree.toList.filter fun entry => isLeaf entry.1).map fun entry =>
    strBytes (relOf entry.1) ++ entry.2) ++ [tree[acsPath]?.getD []]

theorem merkleRootOf_eq_textRoot (tree : CtTree) :
    merkleRootOf tree = textRoot (treeTexts tree) := by
  have hne : treeTexts tree ≠ [] := List.append_ne_nil_of_right_ne_nil _ (List.cons_ne_nil _ _)
  rw [← dagRoot_map_digest hne, merkleRootOf, treeTexts, List.map_append, List.map_map]
  simp [sha256, Function.comp_def]

/-- A tree as it is signed. -/
structure SignedTree where
  uid : String
  tree : CtTree

namespace SignedTree

def message (s : SignedTree) : Bytes := rootMessage commandRid s.uid (merkleRootOf s.tree)

/-- All that is hashed for the message. -/
def inputs (s : SignedTree) : List Bytes := rootInputs commandRid s.uid (treeTexts s.tree)

/-- Trees of one author whose texts match. -/
def Alike (s s' : SignedTree) : Prop :=
  s.uid = s'.uid ∧
    Matches SgitPrimitives.digest nodeText (build (treeTexts s.tree)) (build (treeTexts s'.tree))

theorem message_eq_iff_alike (hlen : ∀ bytes, (SgitPrimitives.digest bytes).length = 32)
    {s s' : SignedTree} {hashed : Set Bytes} (hinj : hashed.InjOn SgitPrimitives.digest)
    (hin : ∀ input ∈ s.inputs, input ∈ hashed) (hin' : ∀ input ∈ s'.inputs, input ∈ hashed) :
    s.message = s'.message ↔ Alike s s' := by
  rw [message, message, merkleRootOf_eq_textRoot, merkleRootOf_eq_textRoot,
    rootMessage_eq_iff hlen hinj hin hin', List.append_cancel_left_eq, strBytes_injective.eq_iff]
  rfl

/-- The signed part of a tree: its leaves and its access file. -/
def SamePart (s s' : SignedTree) : Prop :=
  s.uid = s'.uid ∧
    (s.tree.toList.filter fun entry => isLeaf entry.1) =
      (s'.tree.toList.filter fun entry => isLeaf entry.1) ∧
    s.tree[acsPath]?.getD [] = s'.tree[acsPath]?.getD []

end SignedTree

/-! ### What a reader accepts -/

/-- Every file decrypts. -/
def Decrypts (key : Bytes) (v : Variant) (files : List (CtPath × Bytes)) : Prop :=
  ∀ entry ∈ files, isCiphertext entry.1 → ∃ body, decryptBody key v entry.2 = .ok body

theorem exists_decryptInto_iff {key : Bytes} {v : Variant} {walk : List (CtPath × Bytes)}
    {plain : PlainMap} :
    (∃ out, decryptInto walk plain key v = .ok out) ↔ Decrypts key v walk := by
  induction walk generalizing plain with
  | nil => exact iff_of_true ⟨plain, rfl⟩ (List.forall_mem_nil _)
  | cons entry walk ih =>
    have hentry : (∃ next, decryptEntry key v plain entry = .ok next) ↔
        (isCiphertext entry.1 → ∃ body, decryptBody key v entry.2 = .ok body) := by
      rw [decryptEntry]
      split_ifs with hct
      · simp only [bind_eq_ok_iff, hct, forall_const]
        exact ⟨fun ⟨_, body, hbody, _⟩ => ⟨body, hbody⟩,
          fun ⟨body, hbody⟩ => ⟨_, body, hbody, rfl⟩⟩
      · exact iff_of_true ⟨plain, rfl⟩ fun h => absurd h hct
    rw [Decrypts, List.forall_mem_cons, ← hentry]
    simp only [decryptInto, List.foldlM_cons, bind_eq_ok_iff]
    constructor
    · rintro ⟨out, next, hnext, hout⟩
      exact ⟨⟨next, hnext⟩, ih.mp ⟨out, hout⟩⟩
    · rintro ⟨⟨next, hnext⟩, hrest⟩
      obtain ⟨out, hout⟩ := ih.mpr hrest
      exact ⟨out, next, hnext, hout⟩

theorem verifyTag_eq_ok_iff {tree : CtTree} {rid : String} :
    verifyTag tree rid = .ok () ↔ ∃ tag, readTag tree = .ok tag ∧ SgitPrimitives.verify tag.vk
      (rootMessage rid tag.uid (merkleRootOf tree)) tag.sig = true := by
  rw [verifyTag, bind_eq_ok_iff]
  refine exists_congr fun tag => and_congr_right' ?_
  split_ifs with hverify
  · exact iff_of_true rfl hverify
  · exact iff_of_false (fun h => by cases h) hverify

/-- A clone or a pull of what git has fetched writes a plaintext tree. -/
def Accepts (ct : Checkout) (keyFile : Option Bytes) (uid : String) (v : Variant) : Prop :=
  ∃ plain out, clone (.ok ct) keyFile uid plain v = .ok out ∨
    pullFetched (.ok ct) keyFile uid plain v = .ok out

theorem accepts_iff {ct : Checkout} {keyFile : Option Bytes} {uid : String} {v : Variant} :
    Accepts ct keyFile uid v ↔ ∃ tag k, readTag ct.tree = .ok tag ∧
      loadKeysStrict keyFile uid = .ok k ∧
      SgitPrimitives.verify tag.vk (SignedTree.message ⟨tag.uid, ct.tree⟩) tag.sig = true ∧
      Decrypts k.contentKey v ct.tree.toList := by
  have hwalk (k : Keys) (plain : PlainMap) :
      (∃ out, decryptInto ct.walk plain k.contentKey v = .ok out) ↔
        Decrypts k.contentKey v ct.tree.toList := by
    rw [exists_decryptInto_iff, Decrypts, Decrypts]
    exact forall_congr' fun entry => by rw [ct.perm.mem_iff]
  have hcommand (plain : PlainMap) :
      (∃ out, readFetched (.ok ct) keyFile uid plain v = .ok out) ↔
        verifyTag ct.tree commandRid = .ok () ∧ ∃ k, loadKeysStrict keyFile uid = .ok k ∧
          Decrypts k.contentKey v ct.tree.toList := by
    simp only [← hwalk _ plain, readFetched, bind_eq_ok_iff]
    constructor
    · rintro ⟨out, fetched, hfetched, ⟨⟩, hverify, k, hk, hout⟩
      cases hfetched
      exact ⟨hverify, k, hk, out, hout⟩
    · rintro ⟨hverify, k, hk, out, hout⟩
      exact ⟨out, ct, rfl, ⟨⟩, hverify, k, hk, hout⟩
  -- the two commands do the same, whatever the plaintext tree was
  simp only [Accepts, clone, pullFetched, or_self, hcommand, verifyTag_eq_ok_iff, exists_const]
  constructor
  · rintro ⟨⟨tag, htag, hverify⟩, k, hk, hfiles⟩
    exact ⟨tag, k, htag, hk, hverify, hfiles⟩
  · rintro ⟨tag, k, htag, hk, hverify, hfiles⟩
    exact ⟨⟨tag, htag, hverify⟩, k, hk, hfiles⟩

/-! ### A host with a key of its own -/

theorem readTag_writeTag (tree : CtTree) (k : Keys) (rid : String) :
    readTag (writeTag tree k rid) = .ok ⟨k.uid, SgitPrimitives.sign k.signer
      (rootMessage rid k.uid (merkleRootOf tree)), k.verifyingKey⟩ := by
  rw [readTag, writeTag, ExtTreeMap.getElem?_insert_self]
  dsimp only
  -- the object that was written has all members that are read
  rw [CommandPrimitives.fromSlice_toVec _ (by simp)]
  refine bind_eq_ok_iff.mpr ⟨_, rfl, bind_eq_ok_iff.mpr ⟨_, ?_, bind_eq_ok_iff.mpr ⟨_, ?_, rfl⟩⟩⟩
  · exact SgitPrimitives.base64Decode_encode _
  · exact SgitPrimitives.base64Decode_encode _

/-- A tag is no part of what it signs. -/
theorem merkleRootOf_insert_tagPath (tree : CtTree) (bytes : Bytes) :
    merkleRootOf (tree.insert tagPath bytes) = merkleRootOf tree := by
  rw [merkleRootOf, toList_filter_insert _ (by decide), getElem?_insert_of_ne (by decide),
    merkleRootOf]

/-- A tag is no ciphertext file. -/
theorem decrypts_insert_tagPath_iff {tree : CtTree} {bytes key : Bytes} {v : Variant} :
    Decrypts key v (tree.insert tagPath bytes).toList ↔ Decrypts key v tree.toList := by
  have hkeep (files : List (CtPath × Bytes)) : Decrypts key v files ↔
      ∀ entry ∈ files.filter fun entry => isCiphertext entry.1,
        ∃ body, decryptBody key v entry.2 = .ok body := by
    simp only [Decrypts, List.mem_filter, and_imp]
  rw [hkeep, hkeep, toList_filter_insert _ (by decide)]

/-- A tag that was written is believed. -/
theorem verifyTag_writeTag (tree : CtTree) (k : Keys) (rid : String) :
    verifyTag (writeTag tree k rid) rid = .ok () := by
  refine verifyTag_eq_ok_iff.mpr ⟨_, readTag_writeTag tree k rid, ?_⟩
  rw [writeTag, merkleRootOf_insert_tagPath]
  exact SgitPrimitives.verify_sign _ _

/-- Whoever signs a tree is believed, exactly if it decrypts under the reader's key. -/
theorem accepts_writeTag_iff {tree : CtTree} {ct : Checkout} {host : Keys}
    (hct : ct.tree = writeTag tree host commandRid) {keyFile : Option Bytes} {uid : String}
    {v : Variant} :
    Accepts ct keyFile uid v ↔
      ∃ k, loadKeysStrict keyFile uid = .ok k ∧ Decrypts k.contentKey v tree.toList := by
  have hfiles (key : Bytes) : Decrypts key v ct.tree.toList ↔ Decrypts key v tree.toList := by
    rw [hct]
    exact decrypts_insert_tagPath_iff
  have hroot : merkleRootOf ct.tree = merkleRootOf tree := by
    rw [hct]
    exact merkleRootOf_insert_tagPath tree _
  have htag := readTag_writeTag tree host commandRid
  rw [← hct] at htag
  simp only [accepts_iff, SignedTree.message, hroot, hfiles]
  constructor
  · rintro ⟨tag, k, -, hk, -, hdecrypts⟩
    exact ⟨k, hk, hdecrypts⟩
  · rintro ⟨k, hk, hdecrypts⟩
    exact ⟨_, k, htag, hk, SgitPrimitives.verify_sign _ _, hdecrypts⟩

/-! ### When a reader's key is needed -/

/-- A tree as it is served with a tag. -/
def Tagged (tree : CtTree) (tag : TagFile) (served : CtTree) : Prop :=
  (∃ bytes, served = tree.insert tagPath bytes) ∧ readTag served = .ok tag

/-- A tree and its author were signed. -/
def Signed (log : List SignedTree) (served : SignedTree) : Prop := ∃ s ∈ log, s.SamePart served

/-- However a tree is tagged under the key of a host, a reader believes it only if it was signed.
Under the reader's own key there are no signatures but those over messages of the log. -/
def Unforgeable (log : List SignedTree) (k : Keys) (keyFile : Option Bytes) (uid : String)
    (v : Variant) (tree : CtTree) (host : Keys) : Prop :=
  ∀ (ct : Checkout) (sig : Bytes), Tagged tree ⟨host.uid, sig, host.verifyingKey⟩ ct.tree →
    (host.verifyingKey = k.verifyingKey →
      SgitPrimitives.verify k.verifyingKey (SignedTree.message ⟨host.uid, tree⟩) sig = true →
      SignedTree.message ⟨host.uid, tree⟩ ∈ log.map SignedTree.message) →
    Accepts ct keyFile uid v → Signed log ⟨host.uid, tree⟩

/-- A tree was signed, or its tag is under the reader's own key, with which no tree whose texts
match was signed. -/
def BoundByKey (log : List SignedTree) (k : Keys) (tree : CtTree) (host : Keys) : Prop :=
  Signed log ⟨host.uid, tree⟩ ∨
    host.verifyingKey = k.verifyingKey ∧ ∀ s ∈ log, ¬ s.Alike ⟨host.uid, tree⟩

/-- A message is that of a logged tree exactly when the trees are alike. -/
theorem message_mem_map_iff (hlen : ∀ bytes, (SgitPrimitives.digest bytes).length = 32)
    {log : List SignedTree} {served : SignedTree}
    (hinj : Set.InjOn SgitPrimitives.digest
      {input | input ∈ log.flatMap SignedTree.inputs ++ served.inputs}) :
    served.message ∈ log.map SignedTree.message ↔ ∃ s ∈ log, s.Alike served := by
  rw [List.mem_map]
  refine exists_congr fun s => and_congr_right fun hs => ?_
  refine SignedTree.message_eq_iff_alike hlen hinj (fun input hin => ?_) fun input hin => ?_
  · exact List.mem_append_left _ (List.mem_flatMap.mpr ⟨s, hs, hin⟩)
  · exact List.mem_append_right _ hin

section Host

variable {log : List SignedTree} {k host : Keys} {keyFile : Option Bytes} {uid : String}
variable {v : Variant} {tree : CtTree}

/-- What binds a tree keeps every host from passing another one for it. -/
theorem BoundByKey.unforgeable (h : BoundByKey log k tree host)
    (hlen : ∀ bytes, (SgitPrimitives.digest bytes).length = 32)
    (hinj : Set.InjOn SgitPrimitives.digest
      {input | input ∈ log.flatMap SignedTree.inputs ++ SignedTree.inputs ⟨host.uid, tree⟩}) :
    Unforgeable log k keyFile uid v tree host := by
  rintro ct sig ⟨⟨bytes, htree⟩, htag⟩ hunforged haccepts
  rcases h with hsigned | ⟨hown, hunlike⟩
  · exact hsigned
  · -- the message would be one of the log, and so of a tree alike
    obtain ⟨tag, k', htag', hk', hverify, -⟩ := accepts_iff.mp haccepts
    obtain rfl := Except.ok.inj (htag.symm.trans htag')
    dsimp only at hverify
    rw [SignedTree.message, htree, merkleRootOf_insert_tagPath, hown] at hverify
    obtain ⟨s, hs, halike⟩ := (message_mem_map_iff hlen hinj).mp (hunforged hown hverify)
    exact absurd halike (hunlike s hs)

/-- A host passes an unsigned tree off with a key of its own, and with the reader's own key when a
tree alike was signed. -/
theorem Unforgeable.boundByKey (h : Unforgeable log k keyFile uid v tree host)
    (hlen : ∀ bytes, (SgitPrimitives.digest bytes).length = 32)
    (hinj : Set.InjOn SgitPrimitives.digest
      {input | input ∈ log.flatMap SignedTree.inputs ++ SignedTree.inputs ⟨host.uid, tree⟩})
    (hk : loadKeysStrict keyFile uid = .ok k) (hdecrypts : Decrypts k.contentKey v tree.toList) :
    BoundByKey log k tree host := by
  by_contra hunbound
  obtain ⟨hunsigned, hfree⟩ := not_or.mp hunbound
  set served := writeTag tree host commandRid
  have hmade : (host.verifyingKey = k.verifyingKey → SgitPrimitives.verify k.verifyingKey
      (SignedTree.message ⟨host.uid, tree⟩) (SgitPrimitives.sign host.signer
        (rootMessage commandRid host.uid (merkleRootOf tree))) = true →
      SignedTree.message ⟨host.uid, tree⟩ ∈ log.map SignedTree.message) := by
    intro hown _
    by_contra hfresh
    rw [message_mem_map_iff hlen hinj] at hfresh
    exact hfree ⟨hown, fun s hs halike => hfresh ⟨s, hs, halike⟩⟩
  have haccepts : Accepts ⟨served, served.toList, .refl _⟩ keyFile uid v :=
    (accepts_writeTag_iff rfl).mpr ⟨k, hk, hdecrypts⟩
  exact hunsigned (h _ _ ⟨⟨_, rfl⟩, readTag_writeTag tree host commandRid⟩ hmade haccepts)

end Host

/-- No host gets a tree believed that was not signed, if the tree was signed or is tagged under the
reader's own key while no tree alike was signed; and only then, if it decrypts. -/
theorem unforgeable_iff (hlen : ∀ bytes, (SgitPrimitives.digest bytes).length = 32)
    (log : List SignedTree) (k : Keys) (keyFile : Option Bytes) (uid : String) (v : Variant)
    (tree : CtTree) (host : Keys)
    (hinj : Set.InjOn SgitPrimitives.digest
      {input | input ∈ log.flatMap SignedTree.inputs ++ SignedTree.inputs ⟨host.uid, tree⟩}) :
    (BoundByKey log k tree host → Unforgeable log k keyFile uid v tree host) ∧
      (loadKeysStrict keyFile uid = .ok k → Decrypts k.contentKey v tree.toList →
        (Unforgeable log k keyFile uid v tree host ↔ BoundByKey log k tree host)) :=
  ⟨fun hbound => hbound.unforgeable hlen hinj,
    fun hk hdecrypts => ⟨fun h => h.boundByKey hlen hinj hk hdecrypts,
      fun hbound => hbound.unforgeable hlen hinj⟩⟩

end Trust

/-! ### Two files swapped -/

section Sample

/-- A byte as a character above the bytes. -/
def liftByte (b : UInt8) : Char := Char.ofNat (b.toNat + 256)

theorem toNat_liftByte (b : UInt8) : (liftByte b).toNat = b.toNat + 256 := by
  have hlt := b.toNat_lt
  rw [liftByte, Char.ofNat, dif_pos]
  · rfl
  · exact .inl (by omega)

/-- Read such characters back. -/
def unliftBytes (bytes : Bytes) : Except String Bytes :=
  match fromUtf8 bytes with
  | some text => .ok (text.toList.map fun c => UInt8.ofNat (c.toNat - 256))
  | none => .error "Invalid symbol"

theorem unliftBytes_liftByte (bytes : Bytes) :
    unliftBytes (strBytes (String.ofList (bytes.map liftByte))) = .ok bytes := by
  rw [unliftBytes, fromUtf8_strBytes]
  dsimp only
  rw [String.toList_ofList, List.map_map]
  refine congrArg Except.ok ((List.map_congr_left fun b _ => ?_).trans (List.map_id bytes))
  rw [Function.comp_apply, toNat_liftByte, Nat.add_sub_cancel, UInt8.ofNat_toNat, id]

/-- The primitives above, with every byte written as such a character, and objects framed by
lengths. -/
abbrev framedPrimitives : CommandPrimitives :=
  { digestPrimitives with
    base64Encode := fun bytes => String.ofList (bytes.map liftByte)
    base64Decode := unliftBytes
    base64Decode_encode := unliftBytes_liftByte
    fromSlice := fun bytes =>
      match (Framing.Code.list (.pair .string .string)).readAll bytes with
      | some members => .ok fun name => members.lookup name
      | none => .error "expected value"
    toVec := (Framing.Code.list (.pair .string .string)).write
    fromSlice_toVec := fun members _ => by rw [Framing.Code.readAll_write]
    signerFromBytes := .ok
    base64Encode_unbroken := by
      intro bytes c hc
      rw [String.toList_ofList] at hc
      obtain ⟨b, -, rfl⟩ := List.mem_map.mp hc
      have hlarge : 256 ≤ (liftByte b).toNat := by
        rw [toNat_liftByte]
        omega
      constructor <;> intro heq <;> rw [heq] at hlarge <;> exact absurd hlarge (by decide)
    base64Encode_ne_empty := by
      intro bytes hne hempty
      have hlist := congrArg String.toList hempty
      rw [String.toList_ofList] at hlist
      exact hne (List.map_eq_nil_iff.mp hlist)
    base64Decode_nil := by
      have hempty : strBytes "" = [] := by
        rw [strBytes_eq]
        rfl
      have hdecode : fromUtf8 [] = some "" := hempty ▸ fromUtf8_strBytes ""
      rw [unliftBytes, hdecode]
      rfl }

attribute [local instance] framedPrimitives

def aliceKeys : Keys := ⟨[1], [2], "alice"⟩

/-- The key file of alice. -/
def aliceKeyFile : Bytes :=
  CommandPrimitives.toVec [("mk", SgitPrimitives.base64Encode aliceKeys.masterKey),
    ("sk", SgitPrimitives.base64Encode aliceKeys.signer)]

/-- The ciphertext file of a text. -/
def sealedFile (text : String) : Bytes :=
  strBytes (sealText aliceKeys.contentKey (Vector.replicate 16 0) text) ++ strBytes "\n"

/-- Two files, signed by the given keys. -/
def twoFiles (a b : String) (k : Keys) : CtTree :=
  writeTag (((∅ : CtTree).insert ["a.sgit"] (sealedFile a)).insert ["b.sgit"] (sealedFile b)) k
    commandRid

def aliceTrees : List SignedTree := [⟨"alice", twoFiles "x" "y" aliceKeys⟩]

/-- The keys of mallory, who gives the name of alice. -/
def malloryKeys : Keys := ⟨[], [3], "alice"⟩

/-- What mallory serves: the files of alice swapped, signed with her own key. -/
def swappedTree : CtTree := twoFiles "y" "x" malloryKeys

def swappedCheckout : Checkout := ⟨swappedTree, swappedTree.toList, .refl _⟩

theorem injOn_aliceTrees : Set.InjOn SgitPrimitives.digest
    {input | input ∈ aliceTrees.flatMap SignedTree.inputs ++
      SignedTree.inputs ⟨"alice", swappedTree⟩} := by
  have h : ∀ x ∈ aliceTrees.flatMap SignedTree.inputs ++ SignedTree.inputs ⟨"alice", swappedTree⟩,
      ∀ y ∈ aliceTrees.flatMap SignedTree.inputs ++ SignedTree.inputs ⟨"alice", swappedTree⟩,
        SgitPrimitives.digest x = SgitPrimitives.digest y → x = y := by
    decide +kernel
  exact fun x hx y hy => h x hx y hy

theorem loadKeysStrict_aliceKeyFile :
    loadKeysStrict (some aliceKeyFile) "alice" = .ok aliceKeys := by
  rw [loadKeysStrict, aliceKeyFile, CommandPrimitives.fromSlice_toVec _ (by simp)]
  refine bind_eq_ok_iff.mpr ⟨_, rfl, bind_eq_ok_iff.mpr ⟨[1], ?_,
    bind_eq_ok_iff.mpr ⟨[2], ?_, rfl⟩⟩⟩
  · exact SgitPrimitives.base64Decode_encode _
  · exact SgitPrimitives.base64Decode_encode _

theorem not_signed_swappedTree : ¬ Signed aliceTrees ⟨"alice", swappedTree⟩ := by
  rintro ⟨s, hs, -, hfiles, -⟩
  obtain rfl := List.mem_singleton.mp hs
  revert hfiles
  decide +kernel

theorem clone_swappedCheckout :
    (clone (.ok swappedCheckout) (some aliceKeyFile) "alice" ∅ .char).toOption.map
      ExtTreeMap.toList = some [("a", "y"), ("b", "x")] := by
  decide +kernel

theorem accepts_swappedCheckout : Accepts swappedCheckout (some aliceKeyFile) "alice" .char := by
  obtain ⟨out, hout, -⟩ := Option.map_eq_some_iff.mp clone_swappedCheckout
  cases hread : clone (.ok swappedCheckout) (some aliceKeyFile) "alice" ∅ .char with
  | error e =>
    rw [hread] at hout
    cases hout
  | ok plain => exact ⟨∅, plain, .inl hread⟩

/-- The reader believes the swapped tree. -/
theorem not_unforgeable_swapped :
    (Set.InjOn SgitPrimitives.digest
      {input | input ∈ aliceTrees.flatMap SignedTree.inputs ++
        SignedTree.inputs ⟨"alice", swappedTree⟩}) ∧
    (clone (.ok swappedCheckout) (some aliceKeyFile) "alice" ∅ .char).toOption.map
      ExtTreeMap.toList = some [("a", "y"), ("b", "x")] ∧
    malloryKeys.verifyingKey ≠ aliceKeys.verifyingKey ∧
    ¬ Unforgeable aliceTrees aliceKeys (some aliceKeyFile) "alice" .char swappedTree
      malloryKeys := by
  have hkeys : malloryKeys.verifyingKey ≠ aliceKeys.verifyingKey := by decide
  have htagged : swappedTree = writeTag swappedTree malloryKeys commandRid := by
    decide +kernel
  refine ⟨injOn_aliceTrees, clone_swappedCheckout, hkeys, fun h => ?_⟩
  exact not_signed_swappedTree (h swappedCheckout _ ⟨⟨_, htagged⟩,
    htagged ▸ readTag_writeTag swappedTree malloryKeys commandRid⟩
    (fun hown => absurd hown hkeys) accepts_swappedCheckout)

/-- Under the key of alice nobody gets the swapped tree believed. -/
theorem unforgeable_sample :
    Unforgeable aliceTrees aliceKeys (some aliceKeyFile) "alice" .char swappedTree aliceKeys ∧
    ¬ Unforgeable aliceTrees aliceKeys (some aliceKeyFile) "alice" .char swappedTree
      malloryKeys := by
  have hunlike : ∀ s ∈ aliceTrees, ¬ s.Alike ⟨"alice", swappedTree⟩ := by
    intro s hs halike
    obtain rfl := List.mem_singleton.mp hs
    have hmessage := (message_mem_map_iff length_digest injOn_aliceTrees).mpr ⟨_, hs, halike⟩
    revert hmessage
    decide +kernel
  have hdecrypts : Decrypts aliceKeys.contentKey .char swappedTree.toList := by
    obtain ⟨-, k, -, hk, -, hdecrypts⟩ := accepts_iff.mp accepts_swappedCheckout
    obtain rfl := Except.ok.inj (loadKeysStrict_aliceKeyFile.symm.trans hk)
    exact hdecrypts
  refine ⟨(unforgeable_iff length_digest aliceTrees aliceKeys _ "alice" .char swappedTree aliceKeys
    injOn_aliceTrees).1 (.inr ⟨rfl, hunlike⟩), fun h => ?_⟩
  rcases ((unforgeable_iff length_digest aliceTrees aliceKeys _ "alice" .char swappedTree
    malloryKeys injOn_aliceTrees).2 loadKeysStrict_aliceKeyFile hdecrypts).mp h with hsigned | hown
  · exact not_signed_swappedTree hsigned
  · exact absurd hown.1 (by decide)

end Sample

end SafeHub.SGit
