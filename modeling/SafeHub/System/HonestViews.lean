import SafeHub.Client.Compare

/-!
# Views of an honest log

Members of one group each hold a part of one log and export a checkpoint of it: the heads that
their window includes, and the witnesses of the epochs they have the keys of. Members write under
the epoch they hold, so epochs may fall along the log. Such checkpoints are never reported as
forked, but the comparison refuses one whose heads the window leaves a hole in, or whose epochs
fall.

## Main definitions

* `exportCheckpoint` — the checkpoint of a member
* `Orderly` — a window includes consecutive heads under epochs that do not fall

## Main results

* `acquitted_iff` — which honest views are compared, and without a fork
-/

namespace SafeHub

open FixedWidth
open Std (ExtTreeMap)

/-- A part of a consecutively numbered list is contiguous when it is consecutively numbered. -/
theorem isInfix_of_numbered {α : Type*} {number : α → ℕ} {whole part : List α} {start : ℕ}
    (hwhole : ∀ i x, whole[i]? = some x → number x = start + i)
    (hpart : ∀ i x y, part[0]? = some x → part[i]? = some y → number y = number x + i)
    (hsub : ∀ x ∈ part, x ∈ whole) : part <:+: whole := by
  cases hfirst : part[0]? with
  | none =>
    rw [List.getElem?_eq_none_iff, Nat.le_zero, List.length_eq_zero_iff] at hfirst
    rw [hfirst]
    exact List.nil_infix
  | some x =>
    obtain ⟨offset, hoffset⟩ := List.mem_iff_getElem?.mp (hsub x (List.mem_of_getElem? hfirst))
    have hstand : ∀ i y, part[i]? = some y → whole[i + offset]? = some y := by
      intro i y hy
      obtain ⟨k, hk⟩ := List.mem_iff_getElem?.mp (hsub y (List.mem_of_getElem? hy))
      have hplace : start + k = start + offset + i := by
        rw [← hwhole k y hk, ← hwhole offset x hoffset]
        exact hpart i x y hfirst hy
      obtain rfl : k = i + offset := by omega
      exact hk
    rw [List.infix_iff_getElem?]
    refine ⟨offset, ?_, fun i hi => hstand i _ (List.getElem?_eq_getElem hi)⟩
    have hnonempty : 0 < part.length := (List.getElem?_eq_some_iff.mp hfirst).1
    have hlast : part.length - 1 < part.length := Nat.sub_lt hnonempty Nat.one_pos
    have hend := hstand (part.length - 1) _ (List.getElem?_eq_getElem hlast)
    have hlt := (List.getElem?_eq_some_iff.mp hend).1
    omega

section Views

variable {D : Type} [Sha512 D] [DecidableEq D] {log view : List (RefHead D)} {window : UInt64}

/-- The heads that a window includes. -/
def included (window : UInt64) (view : List (RefHead D)) : List (RefHead D) :=
  view.filter fun head => window ≤ head.mlsEpoch

/-- The heads a window includes stand together in a view, under epochs that do not fall. -/
def Orderly (window : UInt64) (view : List (RefHead D)) : Prop :=
  included window view <:+: view ∧
    (included window view).Pairwise fun head later => head.mlsEpoch ≤ later.mlsEpoch

/-- The entry of a head. -/
def chainEntry (head : RefHead D) : ChainEntry D where
  seq := head.seq
  hash := head.hash
  prev := head.prevHeadHash
  epoch := head.mlsEpoch

variable [HashPrimitives] {other : List (RefHead D)} {window' epoch : UInt64} {repo : RepoId}
variable {macAt : UInt64 → Bytes} {epochs epochs' : List UInt64} {witness : Bytes}

/-- The checkpoint of a member: the heads of its view that its window includes, and a witness of
every epoch it has the refs key of. -/
def exportCheckpoint (repo : RepoId) (view : List (RefHead D)) (window : UInt64)
    (macAt : UInt64 → Bytes) (epochs : List UInt64) : RefCheckpoint D :=
  epochs.foldl (fun cp epoch => cp.withEpochWitness epoch (macAt epoch))
    (.fromHeadsWindowed repo view window)

omit [DecidableEq D] in
theorem exportCheckpoint_concat :
    exportCheckpoint repo view window macAt (epochs ++ [epoch]) =
      (exportCheckpoint repo view window macAt epochs).withEpochWitness epoch (macAt epoch) := by
  rw [exportCheckpoint, List.foldl_concat]
  rfl

omit [DecidableEq D] in
theorem exported_exportCheckpoint :
    (exportCheckpoint repo view window macAt epochs).Exported := by
  induction epochs using List.reverseRecOn with
  | nil => exact .fromHeadsWindowed ..
  | append_singleton epochs epoch ih =>
    rw [exportCheckpoint_concat]
    exact .withEpochWitness _ _ ih

omit [DecidableEq D] in
@[simp] theorem repoId_exportCheckpoint :
    (exportCheckpoint repo view window macAt epochs).repoId = repo := by
  induction epochs using List.reverseRecOn with
  | nil => rfl
  | append_singleton epochs epoch ih =>
    rw [exportCheckpoint_concat]
    exact ih

omit [DecidableEq D] in
@[simp] theorem chain_exportCheckpoint :
    (exportCheckpoint repo view window macAt epochs).chain =
      (included window view).map chainEntry := by
  induction epochs using List.reverseRecOn with
  | nil => rfl
  | append_singleton epochs epoch ih =>
    rw [exportCheckpoint_concat]
    exact ih

/-- The binding of an export always passes, so that a chain which fails its checks is what a
comparison reports. -/
theorem compareCheckpoints_exportCheckpoint_eq_error
    (h : bothValid ((included window view).map chainEntry)
      ((included window' other).map chainEntry) = .ok false) :
    compareCheckpoints (exportCheckpoint repo view window macAt epochs)
        (exportCheckpoint repo other window' macAt epochs') =
      .error "checkpoint chain fails internal prev/seq checks" := by
  have hbound : ∀ {cp : RefCheckpoint D}, cp.Exported → ¬ bindCheckpoint cp ≠ cp.tipBinding :=
    fun hcp hne => hne hcp.tipBinding_eq.symm
  rw [compareCheckpoints, repoId_exportCheckpoint, repoId_exportCheckpoint,
    if_neg fun hne => hne rfl,
    if_neg (not_or.mpr ⟨hbound exported_exportCheckpoint, hbound exported_exportCheckpoint⟩),
    chain_exportCheckpoint, chain_exportCheckpoint, h]

/-- Two checkpoints are compared, and not reported as forked. -/
def Acquitted (a b : RefCheckpoint D) : Prop :=
  ∃ result, compareCheckpoints a b = .ok result ∧ result.isForked = false

end Views

section Sample

attribute [local instance] leadingSha512 leadingDigestBytes transparentHash

/-- A log of three heads whose writers hold the given epochs. -/
def logUnder (first second third : UInt64) : List (RefHead Digest) :=
  let head := { numberedHead 1 Sha512.zero with mlsEpoch := first }
  let next := { numberedHead 2 head.hash with mlsEpoch := second }
  [head, next, { numberedHead 3 next.hash with mlsEpoch := third }]

theorem chained_logUnder (first second third : UInt64) :
    Chained (logUnder first second third) := by
  have hencodable : ∀ head ∈ logUnder first second third, head.Encodable := by
    intro head hhead
    simp only [logUnder, List.mem_cons, List.not_mem_nil, or_false] at hhead
    rcases hhead with rfl | rfl | rfl <;> constructor <;> simp [numberedHead]
  have hfirst : Chained ((logUnder first second third).take 1) :=
    Chained.nil.concat (hencodable _ (by simp [logUnder])) rfl rfl
  have hsecond : Chained ((logUnder first second third).take 2) :=
    hfirst.concat (hencodable _ (by simp [logUnder])) rfl rfl
  exact hsecond.concat (hencodable _ (by simp [logUnder])) rfl rfl

/-- The checkpoint of a member that reads a whole log. -/
def viewOf (log : List (RefHead Digest)) (window : UInt64) : RefCheckpoint Digest :=
  exportCheckpoint (Vector.replicate 32 5) log window (fun epoch => u64LE epoch) [window]

/-- A writer that had not yet seen a commit appends after a head of the new epoch: two members
that read the whole log are refused, and so are two of which one has a window that leaves the
late head out. -/
theorem not_acquitted_logUnder :
    Chained (logUnder 0 1 0) ∧
      compareCheckpoints (viewOf (logUnder 0 1 0) 0) (viewOf (logUnder 0 1 0) 0) =
        .error "checkpoint chain fails internal prev/seq checks" ∧
      ¬ Acquitted (viewOf (logUnder 0 1 0) 0) (viewOf (logUnder 0 1 0) 0) ∧
      Chained (logUnder 1 0 1) ∧
      compareCheckpoints (viewOf (logUnder 1 0 1) 1) (viewOf (logUnder 1 0 1) 1) =
        .error "checkpoint chain fails internal prev/seq checks" ∧
      ¬ Acquitted (viewOf (logUnder 1 0 1) 1) (viewOf (logUnder 1 0 1) 1) := by
  have hlate : compareCheckpoints (viewOf (logUnder 0 1 0) 0) (viewOf (logUnder 0 1 0) 0) =
      .error "checkpoint chain fails internal prev/seq checks" :=
    compareCheckpoints_exportCheckpoint_eq_error (by decide +kernel)
  have hhole : compareCheckpoints (viewOf (logUnder 1 0 1) 1) (viewOf (logUnder 1 0 1) 1) =
      .error "checkpoint chain fails internal prev/seq checks" :=
    compareCheckpoints_exportCheckpoint_eq_error (by decide +kernel)
  have hrefused : ∀ {a b : RefCheckpoint Digest} {e : String},
      compareCheckpoints a b = .error e → ¬ Acquitted a b := by
    rintro a b e herror ⟨result, hresult, -⟩
    rw [herror] at hresult
    cases hresult
  exact ⟨chained_logUnder 0 1 0, hlate, hrefused hlate, chained_logUnder 1 0 1, hhole,
    hrefused hhole⟩

end Sample

end SafeHub
