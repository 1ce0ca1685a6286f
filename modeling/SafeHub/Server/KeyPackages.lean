import SafeHub.Client.Error
import SafeHub.Lib.FileTree
import SafeHub.Lib.Run
import SafeHub.Server.Members
import SafeHub.Server.RepoPaths

/-!
# Key packages

A user publishes one key package for each device, and whoever invites the user takes the packages
that the host lists. The host checks that the user publishes under their own name; the device
label is part of the package's file name as it is.

## Main definitions

* `putKeyPackage`, `listKeyPackages` — the two requests on the host's files
* `PackageHost` — the files, and what each user has published
* `OwnFile` — requests whose package goes into a file of its own, or nowhere

## Main results

* `listsPublished_of_along` — where every request has a file of its own, a user's list is what the
  user has published
* `not_listsPublished_climbing` — a label that replaces another user's package
-/

namespace SafeHub

open Paths Run

/-- A key package of a user's device. -/
structure KeyPackageRecord where
  user : String
  device : String
  keyPackage : Bytes
  deriving DecidableEq, Repr

/-- A request to publish a package under the name in its path. -/
structure PackageRequest where
  /-- The authenticated user. -/
  caller : String
  pathUser : String
  device : String
  keyPackage : Bytes
  deriving DecidableEq, Repr

/-- The text before a suffix. -/
def stripSuffix (s suffix : String) : Option String :=
  if suffix.toList <:+ s.toList then
    some (.ofList (s.toList.take (s.toList.length - suffix.toList.length)))
  else none

section Store

-- how the description of a package is written, and the text of a file-system error
variable (packageMeta : String → String → ℕ → Bytes) (ioText : String) (data : DataRoot)

/-- The path of a user's packages. -/
def packageDir (user : String) : List String := join (join data.path "key_packages") user

/-- Store a package and its description. -/
def storeKeyPackage (tree : FileTree) (r : KeyPackageRecord) : FileTree × Except HttpError Unit :=
  let failed : HttpError := ⟨.internalServerError, ioText⟩
  match tree.makeDirs [] (packageDir data r.user) with
  | (tree, none) => (tree, .error failed)
  | (tree, some _) =>
    match tree.writeFile (join (packageDir data r.user) (r.device ++ ".bin")) r.keyPackage with
    | none => (tree, .error failed)
    | some tree =>
      match tree.writeFile (join (packageDir data r.user) (r.device ++ ".json"))
          (packageMeta r.user r.device r.keyPackage.length) with
      | none => (tree, .error failed)
      | some tree => (tree, .ok ())

/-- Publish a package. -/
def putKeyPackage (tree : FileTree) (r : PackageRequest) : FileTree × Except HttpError Unit :=
  if r.caller ≠ r.pathUser then
    (tree, .error ⟨.forbidden, "can only publish own key packages"⟩)
  else if r.keyPackage = [] then (tree, .error ⟨.badRequest, "empty key package"⟩)
  else storeKeyPackage packageMeta ioText data tree ⟨r.caller, r.device, r.keyPackage⟩

/-- The package of an entry of a user's directory, if it is one. -/
def packageOf (tree : FileTree) (dir : List String) (user name : String) :
    Except HttpError (Option KeyPackageRecord) :=
  match stripSuffix name ".bin" with
  | none => .ok none
  | some device =>
    match tree.lookup (dir ++ [name]) with
    | some (.file bytes) => .ok (some ⟨user, device, bytes⟩)
    | _ => .error ⟨.internalServerError, ""⟩

/-- List the packages of a user, from the entries of the user's directory as they are read. -/
def listKeyPackages (tree : FileTree) (names : List String) (user : String) :
    Except HttpError (List KeyPackageRecord) :=
  if tree.pathExists (packageDir data user) then
    match tree.followDirs [] (packageDir data user) with
    | none => .error ⟨.internalServerError, ""⟩
    | some dir =>
      match names.mapM fun name => packageOf tree dir user name with
      | .error e => .error e
      | .ok records => .ok (records.filterMap id)
  else .ok []

/-- The files of the host, and the latest package of each user's device. -/
structure PackageHost where
  tree : FileTree
  published : String → String → Option Bytes

/-- One request to publish a package. -/
def putStep (host : PackageHost) (r : PackageRequest) : Option PackageHost :=
  match putKeyPackage packageMeta ioText data host.tree r with
  | (tree, .error _) => some { host with tree := tree }
  | (tree, .ok _) =>
    some {
      tree := tree
      published := fun user device =>
        if user = r.caller ∧ device = r.device then some r.keyPackage
        else host.published user device }

/-- However its directory is read, a user's list has one package for each device that the user has
published one for, the latest, and no other. -/
def ListsPublished (host : PackageHost) (user : String) : Prop :=
  ∀ names, (∀ dir, host.tree.followDirs [] (packageDir data user) = some dir →
      names.Perm (host.tree.entries dir)) →
    ∃ records, listKeyPackages data host.tree names user = .ok records ∧
      (records.map KeyPackageRecord.device).Nodup ∧
      ∀ r, r ∈ records ↔ r.user = user ∧ host.published user r.device = some r.keyPackage

/-- A host whose packages' directory is there and empty, as opening a new store leaves it. -/
structure OpenedStore where
  tree : FileTree
  opened : tree.followDirs [] (join data.path "key_packages") =
    some (resolve data.path ++ ["key_packages"])
  empty : ∀ name rest, tree.lookup (resolve data.path ++ "key_packages" :: name :: rest) = none

def PackageHost.start (store : OpenedStore data) : PackageHost := ⟨store.tree, fun _ _ => none⟩

/-- A request that is not turned down comes from a user with a plain name, and its label has no
separator or leads to where nothing can be written. -/
def OwnFile (host : PackageHost) (r : PackageRequest) : Prop :=
  r.caller = r.pathUser → r.keyPackage ≠ [] → Plain r.caller ∧
    ('/' ∉ r.device.toList ∨
      (host.tree.makeDirs [] (packageDir data r.caller)).1.target
        (join (packageDir data r.caller) (r.device ++ ".bin")) = none)

instance (host : PackageHost) (r : PackageRequest) : Decidable (OwnFile data host r) :=
  inferInstanceAs (Decidable (_ → _ → _))

end Store

variable {packageMeta : String → String → ℕ → Bytes} {ioText : String} {data : DataRoot}
variable {host next : PackageHost} {r : PackageRequest} {user device name : String}

/-! ### Names of package files -/

theorem stripSuffix_eq_some_iff {s suffix stem : String} :
    stripSuffix s suffix = some stem ↔ s = stem ++ suffix := by
  rw [stripSuffix]
  constructor
  · intro h
    split_ifs at h with hsuffix
    obtain ⟨front, hfront⟩ := hsuffix
    obtain rfl := Option.some.inj h
    rw [← String.toList_inj, String.toList_append, String.toList_ofList, ← hfront,
      List.length_append, Nat.add_sub_cancel, List.take_left']
    rfl
  · rintro rfl
    rw [String.toList_append, if_pos (List.suffix_append _ _), List.length_append,
      Nat.add_sub_cancel, List.take_left' rfl, String.ofList_toList]

theorem append_right_inj_string {a b suffix : String} : a ++ suffix = b ++ suffix ↔ a = b := by
  rw [← String.toList_inj, ← String.toList_inj, String.toList_append, String.toList_append,
    List.append_cancel_right_eq]

/-- A package's file is not a description. -/
theorem bin_ne_json {a b : String} : a ++ ".bin" ≠ b ++ ".json" := by
  intro h
  have hends := congrArg (fun s => s.toList.reverse.take 2) h
  simp [String.toList_append] at hends

/-! ### The files of a host -/

/-- The directory of all packages. -/
def packagesRoot (data : DataRoot) : List String := resolve data.path ++ ["key_packages"]

/-- The files of a host are what users have published: below the directory of all packages there
are directories of users, and in them a package and a description for each label. -/
structure HoldsPackages (data : DataRoot) (host : PackageHost) : Prop where
  reach : host.tree.followDirs [] (join data.path "key_packages") = some (packagesRoot data)
  userDir : ∀ user node, host.tree.lookup (packagesRoot data ++ [user]) = some node → node = .dir
  stored : ∀ user device bytes, host.published user device = some bytes → Plain user ∧
    host.tree.lookup (packagesRoot data ++ [user]) = some .dir ∧
    host.tree.lookup (packagesRoot data ++ [user, device ++ ".bin"]) = some (.file bytes)
  labelled : ∀ user name node, host.tree.lookup (packagesRoot data ++ [user, name]) = some node →
    node ≠ .dir ∧ ∃ device, (host.published user device).isSome ∧
      (name = device ++ ".bin" ∨ name = device ++ ".json")

theorem packagesRoot_append_ne {user other name : String} :
    packagesRoot data ++ [user] ≠ packagesRoot data ++ [other, name] := by
  intro h
  have htail := List.append_cancel_left h
  cases (List.cons.inj htail).2

theorem packagesRoot_append_inj {user other name name' : String} :
    packagesRoot data ++ [user, name] = packagesRoot data ++ [other, name'] ↔
      user = other ∧ name = name' := by
  rw [List.append_cancel_left_eq]
  simp

/-- Publishing makes the user's directory. -/
theorem HoldsPackages.makeDirs (h : HoldsPackages data host) (huser : Plain user) :
    ∃ tree, host.tree.makeDirs [] (packageDir data user) =
        (tree, some (packagesRoot data ++ [user])) ∧
      tree.followDirs [] (packageDir data user) = some (packagesRoot data ++ [user]) ∧
      HoldsPackages data { host with tree := tree } := by
  have hmake := FileTree.makeDirs_join_plain h.reach huser
  have hfollow := FileTree.followDirs_join_plain h.reach huser
  split_ifs at hmake with hdir hthere
  · -- a user who has published before has the directory
    rw [if_pos hdir] at hfollow
    exact ⟨host.tree, hmake, hfollow, h⟩
  · obtain ⟨node, hnode⟩ := Option.isSome_iff_exists.mp hthere
    exact absurd (.inr (h.userDir user node hnode ▸ hnode)) hdir
  · -- a first publication makes the directory, which no file of another user is below
    refine ⟨_, hmake, ?_, ?_⟩
    · rw [packageDir, FileTree.followDirs_join_plain
        (FileTree.followDirs_insert h.reach (.inl rfl)) huser,
        if_pos (.inr (AList.lookup_insert _))]
    · have hfile : ∀ other name, (host.tree.insert (packagesRoot data ++ [user]) .dir).lookup
          (packagesRoot data ++ [other, name]) =
            host.tree.lookup (packagesRoot data ++ [other, name]) :=
        fun other name => AList.lookup_insert_ne packagesRoot_append_ne.symm
      exact {
        reach := FileTree.followDirs_insert h.reach (.inl rfl)
        userDir := by
          intro other node hnode
          by_cases hother : other = user
          · subst hother
            exact (Option.some.inj ((AList.lookup_insert _).symm.trans hnode)).symm
          · refine h.userDir other node ((AList.lookup_insert_ne fun heq => hother ?_).symm.trans
              hnode)
            exact (List.cons.inj (List.append_cancel_left heq)).1
        stored := by
          intro other device bytes hpublished
          obtain ⟨hother, hplace, hbytes⟩ := h.stored other device bytes hpublished
          refine ⟨hother, ?_, (hfile other _).trans hbytes⟩
          by_cases heq : other = user
          · rw [heq]
            exact AList.lookup_insert _
          · refine (AList.lookup_insert_ne fun hpath => heq ?_).trans hplace
            exact (List.cons.inj (List.append_cancel_left hpath)).1
        labelled := by
          intro other name node hnode
          exact h.labelled other name node ((hfile other name).symm.trans hnode) }

/-- A package or a description is written over what is there or as a new file. -/
theorem writeFile_package {tree : FileTree}
    (hdir : tree.followDirs [] (packageDir data user) = some (packagesRoot data ++ [user]))
    (hname : Plain name) (bytes : Bytes)
    (hentry : tree.lookup (packagesRoot data ++ [user, name]) ≠ some .dir) :
    tree.writeFile (join (packageDir data user) name) bytes =
        some (tree.insert (packagesRoot data ++ [user, name]) (.file bytes)) ∧
      FileTree.followDirs (tree.insert (packagesRoot data ++ [user, name]) (.file bytes)) []
        (packageDir data user) = some (packagesRoot data ++ [user]) := by
  have happend : packagesRoot data ++ [user] ++ [name] = packagesRoot data ++ [user, name] :=
    List.append_assoc ..
  have hplace : ¬ tree.IsDir (packagesRoot data ++ [user, name]) :=
    FileTree.isDir_append_cons_iff.not.mpr hentry
  refine ⟨?_, FileTree.followDirs_insert hdir (.inr hplace)⟩
  rw [FileTree.writeFile, FileTree.target_join_plain hdir hname, happend, if_neg hplace]
  rfl

/-- A host on which a user has published a package. -/
def PackageHost.publish (data : DataRoot) (host : PackageHost) (user device : String)
    (bytes description : Bytes) : PackageHost where
  tree := (host.tree.insert (packagesRoot data ++ [user, device ++ ".bin"])
    (.file bytes)).insert (packagesRoot data ++ [user, device ++ ".json"]) (.file description)
  published other label :=
    if other = user ∧ label = device then some bytes else host.published other label

theorem PackageHost.lookup_publish {bytes description : Bytes} {path : List String}
    (hbin : path ≠ packagesRoot data ++ [user, device ++ ".bin"])
    (hjson : path ≠ packagesRoot data ++ [user, device ++ ".json"]) :
    (host.publish data user device bytes description).tree.lookup path = host.tree.lookup path :=
  (AList.lookup_insert_ne hjson).trans (AList.lookup_insert_ne hbin)

theorem PackageHost.lookup_publish_bin {bytes description : Bytes} :
    (host.publish data user device bytes description).tree.lookup
      (packagesRoot data ++ [user, device ++ ".bin"]) = some (.file bytes) := by
  have hne : packagesRoot data ++ [user, device ++ ".bin"] ≠
      packagesRoot data ++ [user, device ++ ".json"] :=
    fun heq => bin_ne_json (packagesRoot_append_inj.mp heq).2
  exact (AList.lookup_insert_ne hne).trans (AList.lookup_insert _)

theorem HoldsPackages.publish (h : HoldsPackages data host) (huser : Plain user)
    (hdir : host.tree.lookup (packagesRoot data ++ [user]) = some .dir) (bytes description : Bytes)
    (hreach : (host.publish data user device bytes description).tree.followDirs []
      (join data.path "key_packages") = some (packagesRoot data)) :
    HoldsPackages data (host.publish data user device bytes description) where
  reach := hreach
  userDir := by
    intro other node hnode
    rw [PackageHost.lookup_publish packagesRoot_append_ne packagesRoot_append_ne] at hnode
    exact h.userDir other node hnode
  stored := by
    intro other label content hpublished
    rw [PackageHost.lookup_publish packagesRoot_append_ne packagesRoot_append_ne]
    -- the package just published is in its new file, and the others are where they were
    by_cases hsame : other = user ∧ label = device
    · obtain ⟨rfl, rfl⟩ := hsame
      have hcontent : bytes = content := by
        simpa [PackageHost.publish] using hpublished
      exact ⟨huser, hdir, hcontent ▸ PackageHost.lookup_publish_bin⟩
    · have hold : host.published other label = some content := by
        simpa [PackageHost.publish, hsame] using hpublished
      obtain ⟨hother, hplace, hcontent⟩ := h.stored other label content hold
      refine ⟨hother, hplace, (PackageHost.lookup_publish (fun heq => hsame ?_)
        fun heq => ?_).trans hcontent⟩
      · obtain ⟨huser', hlabel⟩ := packagesRoot_append_inj.mp heq
        exact ⟨huser', append_right_inj_string.mp hlabel⟩
      · exact bin_ne_json (packagesRoot_append_inj.mp heq).2
  labelled := by
    intro other name node hnode
    have hnew : ((host.publish data user device bytes description).published user device).isSome :=
      by simp [PackageHost.publish]
    by_cases hjson : packagesRoot data ++ [other, name] =
        packagesRoot data ++ [user, device ++ ".json"]
    · -- the entry is the description that was just written
      obtain ⟨rfl, rfl⟩ := packagesRoot_append_inj.mp hjson
      have hfile := Option.some.inj ((AList.lookup_insert _).symm.trans hnode)
      rw [← hfile]
      exact ⟨by simp, device, hnew, .inr rfl⟩
    · by_cases hbin : packagesRoot data ++ [other, name] =
          packagesRoot data ++ [user, device ++ ".bin"]
      · obtain ⟨rfl, rfl⟩ := packagesRoot_append_inj.mp hbin
        have hfile := Option.some.inj (PackageHost.lookup_publish_bin.symm.trans hnode)
        rw [← hfile]
        exact ⟨by simp, device, hnew, .inl rfl⟩
      · rw [PackageHost.lookup_publish hbin hjson] at hnode
        obtain ⟨hnode, label, hlabel, hext⟩ := h.labelled other name node hnode
        refine ⟨hnode, label, ?_, hext⟩
        rw [PackageHost.publish]
        dsimp only
        split_ifs
        · rfl
        · exact hlabel

/-- With a label that is a name, the package and its description go into the user's directory. -/
theorem HoldsPackages.writeFiles (h : HoldsPackages data host) (huser : Plain user)
    (hlabel : '/' ∉ device.toList) (hfollow : host.tree.followDirs [] (packageDir data user) =
      some (packagesRoot data ++ [user])) (bytes description : Bytes) :
    ∃ tree, host.tree.writeFile (join (packageDir data user) (device ++ ".bin")) bytes =
        some tree ∧
      tree.writeFile (join (packageDir data user) (device ++ ".json")) description =
        some (host.publish data user device bytes description).tree ∧
      HoldsPackages data (host.publish data user device bytes description) := by
  have hdir : host.tree.lookup (packagesRoot data ++ [user]) = some .dir := by
    rw [packageDir, FileTree.followDirs_join_plain h.reach huser] at hfollow
    split_ifs at hfollow with hisDir
    exact FileTree.isDir_append_cons_iff.mp hisDir
  have hnotDir : ∀ name, host.tree.lookup (packagesRoot data ++ [user, name]) ≠ some .dir :=
    fun name hnode => (h.labelled user name .dir hnode).1 rfl
  have hbinName : Plain (device ++ ".bin") := plain_append hlabel (by decide) (by decide)
  have hjsonName : Plain (device ++ ".json") := plain_append hlabel (by decide) (by decide)
  obtain ⟨hbin, hfollowBin⟩ := writeFile_package hfollow hbinName bytes (hnotDir _)
  have hjsonDir : (host.tree.insert (packagesRoot data ++ [user, device ++ ".bin"])
      (.file bytes)).lookup (packagesRoot data ++ [user, device ++ ".json"]) ≠ some .dir := by
    rw [AList.lookup_insert_ne fun heq => bin_ne_json (packagesRoot_append_inj.mp heq).2.symm]
    exact hnotDir _
  obtain ⟨hjson, -⟩ := writeFile_package hfollowBin hjsonName description hjsonDir
  refine ⟨_, hbin, hjson, h.publish huser hdir _ _ ?_⟩
  -- neither file takes the place of a directory on the way
  apply FileTree.followDirs_insert
  · apply FileTree.followDirs_insert h.reach
    exact .inr (FileTree.isDir_append_cons_iff.not.mpr (hnotDir _))
  · exact .inr (FileTree.isDir_append_cons_iff.not.mpr hjsonDir)

variable (packageMeta ioText) in
/-- What storing a package does to a host that holds what was published. -/
theorem HoldsPackages.storeKeyPackage (h : HoldsPackages data host) (hcaller : Plain r.caller)
    (hfile : '/' ∉ r.device.toList ∨ (host.tree.makeDirs [] (packageDir data r.caller)).1.target
      (join (packageDir data r.caller) (r.device ++ ".bin")) = none) :
    (∃ tree e, storeKeyPackage packageMeta ioText data host.tree
        ⟨r.caller, r.device, r.keyPackage⟩ = (tree, .error e) ∧
        HoldsPackages data { host with tree := tree }) ∨
      ∃ tree, HoldsPackages data (PackageHost.publish data ⟨tree, host.published⟩ r.caller r.device
          r.keyPackage (packageMeta r.caller r.device r.keyPackage.length)) ∧
        storeKeyPackage packageMeta ioText data host.tree ⟨r.caller, r.device, r.keyPackage⟩ =
          ((PackageHost.publish data ⟨tree, host.published⟩ r.caller r.device r.keyPackage
            (packageMeta r.caller r.device r.keyPackage.length)).tree, .ok ()) := by
  obtain ⟨tree, hmake, hfollow, htree⟩ := h.makeDirs hcaller
  rw [hmake] at hfile
  rw [SafeHub.storeKeyPackage]
  dsimp only
  rw [hmake]
  dsimp only
  rcases hfile with hlabel | hrefused
  · right
    -- both files are written, the package first
    obtain ⟨written, hbin, hjson, hholds⟩ := htree.writeFiles hcaller hlabel hfollow r.keyPackage
      (packageMeta r.caller r.device r.keyPackage.length)
    refine ⟨tree, hholds, ?_⟩
    rw [hbin]
    dsimp only
    rw [hjson]
  · left
    -- the label leads to where nothing can be written, and only the directory was made
    refine ⟨tree, ⟨.internalServerError, ioText⟩, ?_, htree⟩
    rw [FileTree.writeFile, hrefused]
    rfl

/-- A request whose package goes into a file of its own, or nowhere, keeps the files to what users
have published. -/
theorem HoldsPackages.putStep (h : HoldsPackages data host) (hown : OwnFile data host r)
    (hstep : putStep packageMeta ioText data host r = some next) : HoldsPackages data next := by
  rw [SafeHub.putStep, putKeyPackage] at hstep
  split_ifs at hstep with hother hempty
  · obtain rfl := Option.some.inj hstep
    exact h
  · obtain rfl := Option.some.inj hstep
    exact h
  · obtain ⟨hcaller, hfile⟩ := hown (not_not.mp hother) hempty
    rcases h.storeKeyPackage packageMeta ioText hcaller hfile with
      ⟨tree, e, hstore, hholds⟩ | ⟨tree, hholds, hstore⟩
    · rw [hstore] at hstep
      obtain rfl := Option.some.inj hstep
      exact hholds
    · rw [hstore] at hstep
      obtain rfl := Option.some.inj hstep
      exact hholds

/-! ### What is listed -/

/-- The package that an entry of a user's directory stands for. -/
def PackageHost.packageAt (host : PackageHost) (user name : String) : Option KeyPackageRecord :=
  (stripSuffix name ".bin").bind fun device =>
    (host.published user device).map fun bytes => ⟨user, device, bytes⟩

theorem PackageHost.packageAt_eq_some_iff {r : KeyPackageRecord} :
    host.packageAt user name = some r ↔ r.user = user ∧ name = r.device ++ ".bin" ∧
      host.published user r.device = some r.keyPackage := by
  rw [packageAt, Option.bind_eq_some_iff]
  constructor
  · rintro ⟨device, hname, hpublished⟩
    obtain ⟨bytes, hbytes, rfl⟩ := Option.map_eq_some_iff.mp hpublished
    exact ⟨rfl, stripSuffix_eq_some_iff.mp hname, hbytes⟩
  · rintro ⟨rfl, rfl, hpublished⟩
    exact ⟨r.device, stripSuffix_eq_some_iff.mpr rfl, by rw [hpublished]; rfl⟩

/-- An entry of a user's directory is read as what the user has published. -/
theorem HoldsPackages.packageOf (h : HoldsPackages data host)
    (hname : name ∈ host.tree.entries (packagesRoot data ++ [user])) :
    packageOf host.tree (packagesRoot data ++ [user]) user name =
      .ok (host.packageAt user name) := by
  have happend : packagesRoot data ++ [user] ++ [name] = packagesRoot data ++ [user, name] :=
    List.append_assoc ..
  obtain ⟨node, hnode⟩ := FileTree.mem_entries_iff.mp hname
  rw [happend] at hnode
  obtain ⟨-, device, hdevice, hext⟩ := h.labelled user name node hnode
  obtain ⟨bytes, hbytes⟩ := Option.isSome_iff_exists.mp hdevice
  rw [SafeHub.packageOf, happend, PackageHost.packageAt]
  rcases hext with rfl | rfl
  · rw [stripSuffix_eq_some_iff.mpr rfl, (h.stored user device bytes hbytes).2.2,
      Option.bind_some, hbytes]
    rfl
  · have hnone : stripSuffix (device ++ ".json") ".bin" = none :=
      Option.eq_none_iff_forall_ne_some.mpr fun stem hstem =>
        bin_ne_json (stripSuffix_eq_some_iff.mp hstem).symm
    rw [hnone]
    rfl

/-- No two entries stand for packages of one label. -/
theorem PackageHost.nodup_packageAt {names : List String} (h : names.Nodup) :
    ((names.filterMap (host.packageAt user)).map KeyPackageRecord.device).Nodup := by
  rw [List.map_filterMap]
  refine h.filterMap fun name other device hname hother => ?_
  obtain ⟨r, hr, rfl⟩ := Option.map_eq_some_iff.mp hname
  obtain ⟨r', hr', hdevice⟩ := Option.map_eq_some_iff.mp hother
  rw [(PackageHost.packageAt_eq_some_iff.mp hr).2.1,
    (PackageHost.packageAt_eq_some_iff.mp hr').2.1, hdevice]

/-- The entries of a user's directory stand for what the user has published. -/
theorem HoldsPackages.mem_packageAt_iff (h : HoldsPackages data host) {names : List String}
    (hperm : names.Perm (host.tree.entries (packagesRoot data ++ [user])))
    {r : KeyPackageRecord} : r ∈ names.filterMap (host.packageAt user) ↔
      r.user = user ∧ host.published user r.device = some r.keyPackage := by
  rw [List.mem_filterMap]
  constructor
  · rintro ⟨name, -, hname⟩
    obtain ⟨hr, -, hpublished⟩ := PackageHost.packageAt_eq_some_iff.mp hname
    exact ⟨hr, hpublished⟩
  · rintro ⟨hr, hpublished⟩
    refine ⟨r.device ++ ".bin", hperm.mem_iff.mpr (FileTree.mem_entries_iff.mpr ?_),
      PackageHost.packageAt_eq_some_iff.mpr ⟨hr, rfl, hpublished⟩⟩
    rw [List.append_assoc]
    exact ⟨_, (h.stored user r.device r.keyPackage hpublished).2.2⟩

theorem HoldsPackages.listsPublished (h : HoldsPackages data host) (huser : Plain user) :
    ListsPublished data host user := by
  intro names hnames
  have hexists := FileTree.pathExists_join_plain h.reach huser
  have hfollow := FileTree.followDirs_join_plain h.reach huser
  rw [listKeyPackages, packageDir, hexists]
  cases hnode : host.tree.lookup (packagesRoot data ++ [user]) with
  | none =>
    -- the user has no directory, and so has published nothing
    have hnoDir : ¬ host.tree.IsDir (packagesRoot data ++ [user]) := by
      rw [FileTree.isDir_append_cons_iff, hnode]
      exact nofun
    refine ⟨[], by simp [hnoDir], List.nodup_nil, fun r => ?_⟩
    refine iff_of_false List.not_mem_nil fun hr => ?_
    have hthere := (h.stored user r.device r.keyPackage hr.2).2.1
    rw [hnode] at hthere
    cases hthere
  | some node =>
    obtain rfl := h.userDir user node hnode
    rw [if_pos (.inr hnode)] at hfollow
    have hperm := hnames _ hfollow
    have hmap : (names.mapM fun name =>
        SafeHub.packageOf host.tree (packagesRoot data ++ [user]) user name) =
        .ok (names.map (host.packageAt user)) := by
      rw [mapM_eq_ok_iff, List.forall₂_map_right_iff, List.forall₂_same]
      exact fun name hname => h.packageOf (hperm.subset hname)
    have hthere : decide (host.tree.IsDir (packagesRoot data ++ [user]) ∨
        (some Node.dir).isSome = true) = true := by
      simp
    rw [hfollow, if_pos hthere]
    dsimp only
    rw [hmap]
    refine ⟨names.filterMap (host.packageAt user), ?_, ?_, fun r => h.mem_packageAt_iff hperm⟩
    · dsimp only
      rw [List.filterMap_map]
      rfl
    · exact PackageHost.nodup_packageAt (hperm.nodup_iff.mpr FileTree.nodup_entries)

theorem holdsPackages_start (store : OpenedStore data) :
    HoldsPackages data (.start data store) where
  reach := store.opened
  userDir user node hnode := by
    rw [packagesRoot, List.append_assoc] at hnode
    exact absurd ((store.empty user []).symm.trans hnode) (by simp)
  stored user device bytes hpublished := by cases hpublished
  labelled user name node hnode := by
    rw [packagesRoot, List.append_assoc] at hnode
    exact absurd ((store.empty user [name]).symm.trans hnode) (by simp)

/-- In every run whose requests have files of their own, a user's list is what the user has
published, for every user with a plain name. -/
theorem listsPublished_of_along {store : OpenedStore data} {ops : List PackageRequest}
    (hown : Along (putStep packageMeta ioText data) (OwnFile data) (.start data store) ops)
    (hrun : run (putStep packageMeta ioText data) (.start data store) ops = some host)
    (huser : Plain user) : ListsPublished data host user := by
  have hholds := hown.invariant (I := HoldsPackages data)
    (fun _ _ _ h hop hstep => h.putStep hop hstep) (holdsPackages_start store) hrun
  exact hholds.listsPublished huser

section Sample

/-- A host that is new. -/
def sampleStore : OpenedStore sampleRoot where
  tree := AList.insert ["data", "key_packages"] .dir (AList.singleton ["data"] .dir)
  opened := by decide +kernel
  empty := by
    intro name rest
    have hroot : resolve sampleRoot.path = ["data"] := by decide
    rw [hroot, AList.lookup_insert_ne (by simp)]
    exact AList.lookup_eq_none.mpr (by simp [AList.mem_keys])

/-- A description with the size of the package. -/
def sampleMeta (_ _ : String) (size : ℕ) : Bytes := [.ofNat size]

/-- One user publishes a package, and another one under a given label. -/
def samplePackages (label : String) : List PackageRequest :=
  [⟨"victim", "victim", "default", [1]⟩, ⟨"mallory", "mallory", label, [9]⟩]

/-- A label that leads to another user's directory replaces that user's package. -/
theorem not_listsPublished_climbing :
    ∃ host, run (putStep sampleMeta "" sampleRoot) (.start sampleRoot sampleStore)
        (samplePackages "../victim/default") = some host ∧
      host.published "victim" "default" = some [1] ∧
      listKeyPackages sampleRoot host.tree
          (host.tree.entries (packagesRoot sampleRoot ++ ["victim"])) "victim" =
        .ok [⟨"victim", "default", [9]⟩] ∧
      ¬ ListsPublished sampleRoot host "victim" := by
  have hlisted : ∀ host : PackageHost,
      host.tree.followDirs [] (packageDir sampleRoot "victim") =
        some (packagesRoot sampleRoot ++ ["victim"]) →
      host.published "victim" "default" = some [1] →
      listKeyPackages sampleRoot host.tree
          (host.tree.entries (packagesRoot sampleRoot ++ ["victim"])) "victim" =
        .ok [⟨"victim", "default", [9]⟩] →
      ¬ ListsPublished sampleRoot host "victim" := by
    intro host hdir hpublished hlist h
    have hperm : ∀ dir, host.tree.followDirs [] (packageDir sampleRoot "victim") = some dir →
        (host.tree.entries (packagesRoot sampleRoot ++ ["victim"])).Perm (host.tree.entries dir) :=
      fun dir hfollow => by rw [Option.some.inj (hdir.symm.trans hfollow)]
    obtain ⟨records, hrecords, -, hmem⟩ := h _ hperm
    obtain rfl := Except.ok.inj (hlist.symm.trans hrecords)
    have hnine := ((hmem _).mp (List.mem_singleton_self _)).2
    exact absurd (hpublished.symm.trans hnine) (by decide)
  have hseen : (run (putStep sampleMeta "" sampleRoot) (.start sampleRoot sampleStore)
      (samplePackages "../victim/default")).map (fun host =>
        (host.tree.followDirs [] (packageDir sampleRoot "victim"),
          host.published "victim" "default",
          listKeyPackages sampleRoot host.tree
            (host.tree.entries (packagesRoot sampleRoot ++ ["victim"])) "victim")) =
      some (some (packagesRoot sampleRoot ++ ["victim"]), some [1],
        .ok [⟨"victim", "default", [9]⟩]) := by
    decide +kernel
  obtain ⟨host, hrun, hhost⟩ := Option.map_eq_some_iff.mp hseen
  simp only [Prod.mk.injEq] at hhost
  obtain ⟨hdir, hpublished, hlist⟩ := hhost
  exact ⟨host, hrun, hpublished, hlist, hlisted host hdir hpublished hlist⟩

/-- Labels without separators. -/
theorem listsPublished_two_users :
    ∃ host, run (putStep sampleMeta "" sampleRoot) (.start sampleRoot sampleStore)
        (samplePackages "default") = some host ∧ ListsPublished sampleRoot host "victim" := by
  have hown : Along (putStep sampleMeta "" sampleRoot) (OwnFile sampleRoot)
      (.start sampleRoot sampleStore) (samplePackages "default") := by
    decide +kernel
  have hsome : (run (putStep sampleMeta "" sampleRoot) (.start sampleRoot sampleStore)
      (samplePackages "default")).isSome := by
    decide +kernel
  obtain ⟨host, hrun⟩ := Option.isSome_iff_exists.mp hsome
  exact ⟨host, hrun, listsPublished_of_along hown hrun (by decide)⟩

end Sample

end SafeHub
