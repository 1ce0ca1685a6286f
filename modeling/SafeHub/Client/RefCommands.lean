import SafeHub.Client.Push

/-!
# Commands that change one ref

Three commands append a head for the sake of one ref: the push, the deletion of a ref, and the
push of the remote helper, which deletes as well. Each of them hands the client a whole map of
refs, the one that it has read with its own ref changed. A forced push and the remote helper go
on without the refs of a tip that they cannot read.

## Main definitions

* `RefCall` — what a command calls the client with
* `deleteRemoteRef`, `HelperPush.doPush` — the deletion and the remote helper
* `RefCommand.call` — a command, from the tip it has read to its call of the client

## Main results

* `asks_of_call` — away from its own ref a command asks for what it has read
-/

namespace SafeHub

open Std (ExtTreeMap)

/-- A call of the client: the ref that a command names, the refs that it has read, and the
arguments. -/
structure RefCall where
  name : String
  seen : RefMap
  args : PushArgs

/-- Away from its own ref a call asks for the refs that were read, and it opens heads with the
given keys. -/
structure RefCall.Asks (call : RefCall) (material : EpochMaterial Bytes Bytes) : Prop where
  material : call.args.material = material
  gitRefs : ∀ name : String, name ≠ call.name → call.args.gitRefs[name]? = call.seen[name]?

/-- A checkout's repository, with its keys. -/
structure RefDevice (D : Type) where
  repo : RepoId
  material : EpochMaterial Bytes Bytes
  keys : LocalKeys
  /-- The random bytes drawn when the refs of a tip are opened. -/
  draws : RefHead D → Draws Bytes

/-- A push of the remote helper: its refspec, and what it asks git for. -/
structure HelperPush (D : Type) where
  device : RefDevice D
  spec : String
  /-- `git rev-parse`, with what it reports when it fails. -/
  revParse : String → Except String String
  /-- `git bundle create`. -/
  createBundle : String → Option Bytes

/-- A command that names one ref. -/
inductive RefCommand (D : Type)
  | push (push : RefPush D)
  | delete (device : RefDevice D) (dst : String)
  | helper (push : HelperPush D)

/-- A refspec of the remote helper: whether it is forced, its source and its destination. -/
def parseRefspec (spec : String) : Except ClientError (Bool × String × String) :=
  let force := spec.toList.head? == some '+'
  let spec := spec.toList.dropWhile (· == '+')
  match spec.dropWhile (· != ':') with
  | _ :: dst => .ok (force, String.ofList (spec.takeWhile (· != ':')), String.ofList dst)
  | [] => .error (.other s!"bad push refspec: {String.ofList spec}")

section Commands

variable {D : Type}

/-- The refs of a tip, and none without a tip. -/
def seenRefs (tip : Option (FetchResult D)) : RefMap :=
  (tip.map fun fetched => fetched.refs.refs).getD ∅

/-- The device that runs a command. -/
def RefPush.device (push : RefPush D) : RefDevice D :=
  ⟨push.repo, push.material, push.keys, push.draws⟩

def RefCommand.device : RefCommand D → RefDevice D
  | .push p => p.device
  | .delete device _ => device
  | .helper p => p.device

/-- Remove a ref from those of the tip, in a head that adds no objects. -/
def removeRef (device : RefDevice D) (dst : String) (tip : Option (FetchResult D)) :
    Except ClientError RefCall :=
  let dst := dstRef dst
  let gitRefs := seenRefs tip
  if gitRefs.contains dst then
    .ok ⟨dst, gitRefs, {
      repo := device.repo
      bundle := refOnlyBundle
      gitRefs := gitRefs.erase dst
      headSymref := tip.bind fun fetched => fetched.refs.head
      material := device.material
      keys := device.keys
      nonFf := true
      maxRetries := defaultCasRetries }⟩
  else .error (.other s!"remote ref {dst} not present")

/-- The deletion of a ref, which stops at an unreadable tip. -/
def deleteRemoteRef (device : RefDevice D) (dst : String)
    (tip : Except ClientError (Option (FetchResult D))) : Except ClientError RefCall :=
  tip >>= removeRef device dst

/-- A push of the remote helper, for which an unreadable tip is no tip. -/
def HelperPush.doPush (push : HelperPush D)
    (tip : Except ClientError (Option (FetchResult D))) : Except ClientError RefCall := do
  let (force, src, dst) ← parseRefspec push.spec
  let tip := tip.toOption.getD none
  if src.isEmpty then removeRef push.device dst tip
  else
    let dst := dstRef dst
    let oid ← (push.revParse src).mapError fun stderr => .other s!"rev-parse {src}: {stderr}"
    match push.createBundle src with
    | none => .error (.other s!"git bundle create failed for {src}")
    | some bundle =>
      return ⟨dst, seenRefs tip, {
        repo := push.device.repo
        bundle := bundle
        gitRefs := (seenRefs tip).insert dst oid
        headSymref := some ("ref: " ++ dst)
        material := push.device.material
        keys := push.device.keys
        nonFf := force
        maxRetries := defaultCasRetries }⟩

variable [Sha512 D] [HashPrimitives] [MlDsa87] [RefsCodec] [HexCodec D]

/-- What a command makes of the tip that it has read; none where it does not call the client. -/
def RefCommand.call (command : RefCommand D)
    (tip : Except ClientError (Option (FetchResult D))) : Option RefCall :=
  match command with
  | .push p =>
    match p.decide tip with
    | .push checked args => some ⟨dstRef p.dst, checked, args⟩
    | _ => none
  | .delete device dst => (deleteRemoteRef device dst tip).toOption
  | .helper p => (p.doPush tip).toOption

variable {command : RefCommand D} {call : RefCall} {device : RefDevice D} {dst : String}
variable {tip : Except ClientError (Option (FetchResult D))}

omit [HashPrimitives] [MlDsa87] [RefsCodec]

omit [Sha512 D] [HexCodec D] in
theorem asks_of_removeRef {tip : Option (FetchResult D)}
    (h : removeRef device dst tip = .ok call) : call.Asks device.material := by
  unfold removeRef at h
  dsimp only at h
  split_ifs at h
  obtain rfl := Except.ok.inj h
  exact ⟨rfl, fun name hname => TreeMaps.getElem?_erase_of_ne hname⟩

omit [Sha512 D] [HexCodec D] in
theorem asks_of_doPush {push : HelperPush D} (h : push.doPush tip = .ok call) :
    call.Asks push.device.material := by
  obtain ⟨⟨force, src, dst⟩, -, h⟩ := bind_eq_ok_iff.mp h
  dsimp only at h
  split_ifs at h
  · exact asks_of_removeRef h
  · obtain ⟨oid, -, h⟩ := bind_eq_ok_iff.mp h
    split at h
    · cases h
    · obtain rfl := Except.ok.inj h
      exact ⟨rfl, fun name hname => TreeMaps.getElem?_insert_of_ne hname⟩

omit [Sha512 D] [HexCodec D] in
/-- A command asks for the refs that it has read, but for its own. -/
theorem asks_of_call (h : command.call tip = some call) : call.Asks command.device.material := by
  cases command with
  | push p =>
    simp only [RefCommand.call] at h
    split at h
    · next checked args hdecide =>
      obtain rfl := Option.some.inj h
      have hasks := asks_of_decide hdecide
      refine ⟨hasks.material, fun name hname => ?_⟩
      rw [hasks.gitRefs, pushedRefs_eq, TreeMaps.getElem?_insert_of_ne hname]
    · cases h
  | delete device dst =>
    have hdelete : deleteRemoteRef device dst tip = .ok call := toOption_eq_some_iff.mp h
    obtain ⟨fetched, -, hremove⟩ := bind_eq_ok_iff.mp hdelete
    exact asks_of_removeRef hremove
  | helper p =>
    have hpush : p.doPush tip = .ok call := toOption_eq_some_iff.mp h
    exact asks_of_doPush hpush

end Commands

end SafeHub
