import SafeHub.Client.Policy
import SafeHub.Lib.HashChain
import SafeHub.Storage.HeadLog

/-!
# The reader's chain check

What a run of heads that passes the chain check has in common with the log the host keeps.
A run that shares a head with the log is the log up to that head. The check also accepts a
run that starts at any sequence number, which the host's own check does not.

## Main definitions

* `Follows` — a run of heads that comes after an anchor in a log
* `verifyHeadChainChecked` — the chain check in a build that checks its arithmetic
* `appendAll` — heads appended one after the other
* `Successive` — heads linked from the zero digest and numbered without gaps

## Main results

* `take_eq_of_verifyHeadChain` — a run that passes agrees with the log up to a head of it
* `verifiesAppended_iff` — where the reader and the host agree on what a log is
-/

namespace SafeHub

open HashChain

section Chains

variable {D : Type} [Sha512 D] {log run served heads : List (RefHead D)} {anchor : HeadHash D}
variable {head : RefHead D} {i j : ℕ}

/-- A list of heads linked by hash from an anchor. -/
abbrev LinkedHeads (anchor : HeadHash D) (heads : List (RefHead D)) : Prop :=
  LinkedFrom RefHead.hash RefHead.prevHeadHash anchor heads

/-- Hashing is ideal on a set of heads: it tells them apart, and no head is its own ancestor. -/
abbrev IdealChainOn (heads : Set (RefHead D)) : Prop :=
  Ideal RefHead.hash RefHead.prevHeadHash heads

/-- A run of heads stands in a log, after the head that the anchor is the hash of. -/
def Follows (log : List (RefHead D)) (anchor : HeadHash D) (run : List (RefHead D)) : Prop :=
  ∃ before after, log = before ++ run ++ after ∧ lastHash before = anchor

theorem Chained.linkedHeads (h : Chained log) : LinkedHeads Sha512.zero log := by
  induction h with
  | nil => trivial
  | concat _ _ hprev _ ih => exact linkedFrom_concat.mpr ⟨ih, hprev⟩

theorem Follows.linkedHeads (h : Follows log anchor run) (hlog : Chained log) :
    LinkedHeads anchor run := by
  obtain ⟨before, after, rfl, rfl⟩ := h
  have hfront := (linkedFrom_append.mp hlog.linkedHeads).1
  exact (linkedFrom_append.mp hfront).2

/-- Where the hashes of some heads differ, one of a log among them comes right after the one
whose hash it names. -/
theorem Chained.seq_of_prev {known : Set (RefHead D)} (h : Chained log)
    (hideal : IdealHashOn known) (hlog : ∀ head ∈ log, head ∈ known) {prev next : RefHead D}
    (hprev : prev ∈ known) (hnext : next ∈ log) (hlink : next.prevHeadHash = prev.hash) :
    next.seq.toNat = prev.seq.toNat + 1 := by
  obtain ⟨k, hk⟩ := List.mem_iff_getElem?.mp hnext
  have hseq := (h.getElem?_eq_some_iff.mp hk).2
  cases k with
  | zero =>
    have hzero : prev.hash = Sha512.zero := hlink.symm.trans (h.linkedHeads.first hk)
    exact absurd hzero (hideal.ne_zero prev hprev)
  | succ k =>
    obtain ⟨w, hw⟩ : ∃ w, log[k]? = some w :=
      ⟨_, List.getElem?_eq_getElem (Nat.lt_of_succ_lt (List.getElem?_eq_some_iff.mp hk).1)⟩
    obtain ⟨hmem, hwseq⟩ := h.getElem?_eq_some_iff.mp hw
    have hsame : w = prev :=
      hideal.injOn (hlog w hmem) hprev ((h.linkedHeads.link hw hk).symm.trans hlink)
    rw [hseq, ← hsame, hwseq]

/-- On the heads of logs it is enough that hashes differ. -/
theorem idealChainOn_of_logs {known : Set (RefHead D)} (hideal : IdealHashOn known)
    (hlogs : ∀ head ∈ known, ∃ log, Chained log ∧ head ∈ log ∧ ∀ other ∈ log, other ∈ known) :
    IdealChainOn known := by
  refine ⟨hideal.injOn, fun x hcycle => ?_⟩
  -- a child has the number after its parent's, so descendants have greater numbers
  have hchild : ∀ a b, Parent RefHead.hash RefHead.prevHeadHash known a b →
      b.seq.toNat = a.seq.toNat + 1 := by
    rintro a b ⟨ha, hb, hlink⟩
    obtain ⟨log, hlog, hmem, hsub⟩ := hlogs b hb
    exact hlog.seq_of_prev hideal hsub ha hmem hlink
  have hless : ∀ y, Relation.TransGen (Parent RefHead.hash RefHead.prevHeadHash known) x y →
      x.seq.toNat < y.seq.toNat := by
    intro y hpath
    induction hpath with
    | single hparent =>
      rw [hchild _ _ hparent]
      exact Nat.lt_succ_self _
    | tail _ hparent ih =>
      rw [hchild _ _ hparent]
      exact Nat.lt_succ_of_lt ih
  exact absurd (hless x hcycle) (lt_irrefl _)

variable [DecidableEq D]

/-- The heads of a verified run are linked from the anchor. -/
theorem linkedHeads_of_verifyHeadChainLoop {expectSeq : Option UInt64}
    (h : verifyHeadChainLoop heads anchor expectSeq = .ok ()) : LinkedHeads anchor heads := by
  induction heads generalizing anchor expectSeq with
  | nil => trivial
  | cons head rest ih =>
    unfold verifyHeadChainLoop at h
    split_ifs at h with hbroken
    refine ⟨not_not.mp hbroken, ?_⟩
    cases expectSeq with
    | none => exact ih h
    | some prevSeq =>
      simp only at h
      split_ifs at h
      exact ih h

/-- A run that is linked from the anchor and numbered without gaps is verified. -/
theorem verifyHeadChainLoop_eq_ok {expectSeq : Option UInt64} (hlinked : LinkedHeads anchor heads)
    (hseqs : heads.IsChain fun prev next => next.seq = prev.seq + 1)
    (hexpect : ∀ prevSeq ∈ expectSeq, ∀ first ∈ heads.head?, first.seq = prevSeq + 1) :
    verifyHeadChainLoop heads anchor expectSeq = .ok () := by
  induction heads generalizing anchor expectSeq with
  | nil => rfl
  | cons head rest ih =>
    have hrest : verifyHeadChainLoop rest head.hash (some head.seq) = .ok () := by
      apply ih hlinked.2 hseqs.tail
      intro prevSeq hprev first hfirst
      rw [← Option.some.inj hprev]
      exact (List.isChain_cons.mp hseqs).1 first hfirst
    unfold verifyHeadChainLoop
    rw [if_neg (not_not.mpr hlinked.1)]
    cases expectSeq with
    | none => exact hrest
    | some prevSeq =>
      have hseq := hexpect prevSeq rfl head rfl
      dsimp only
      rw [if_neg (not_not.mpr hseq), hrest]

/-- A run that the host serves and the reader accepts from an anchor agrees with the log on
every head up to one that they share. -/
theorem take_eq_of_verifyHeadChain (hlog : Chained log) (hrun : Follows log anchor run)
    (hideal : IdealChainOn {head | head ∈ run ∨ head ∈ served})
    (haccepted : verifyHeadChain served anchor = .ok ()) (hhonest : run[i]? = some head)
    (hserved : served[j]? = some head) : i = j ∧ served.take (j + 1) = run.take (i + 1) := by
  have hlinked := linkedHeads_of_verifyHeadChainLoop haccepted
  obtain ⟨hsame, htake⟩ := (hrun.linkedHeads hlog).take_eq hlinked hideal (fun _ => .inl)
    (fun _ => .inr) hhonest hserved
  exact ⟨hsame, htake.symm⟩

end Chains

/-! ### The reader and the host -/

/-- What the reader's check comes to in a build that checks its arithmetic: it returns or it
panics with a message. -/
inductive ChainVerdict
  | returned (result : Except ClientError Unit)
  | panicked (message : String)
  deriving DecidableEq

/-- The panic of an addition. -/
def overflowText : String := "attempt to add with overflow"

section Verdicts

variable {D : Type} [Sha512 D] [DecidableEq D]

/-- The loop over the heads where additions and encodings may panic. -/
def verifyHeadChainCheckedLoop :
    List (RefHead D) → HeadHash D → Option UInt64 → ChainVerdict
  | [], _, _ => .returned (.ok ())
  | head :: rest, expectPrev, expectSeq =>
    if head.prevHeadHash ≠ expectPrev then
      .returned (.error (.other (s!"head chain broken at seq {head.seq}: " ++
        "prev_head_hash does not descend from the previous head")))
    else
      match expectSeq with
      | some prevSeq =>
        if prevSeq.toNat + 1 < 2 ^ 64 then
          if head.seq ≠ prevSeq + 1 then
            .returned (.error (.other s!"head chain gap: seq {head.seq} follows seq {prevSeq}"))
          else if head.Encodable then verifyHeadChainCheckedLoop rest head.hash (some head.seq)
          else .panicked "opaque length fits u32"
        else .panicked overflowText
      | none =>
        if head.Encodable then verifyHeadChainCheckedLoop rest head.hash (some head.seq)
        else .panicked "opaque length fits u32"

/-- The chain check in a build that checks its arithmetic. -/
def verifyHeadChainChecked (heads : List (RefHead D)) (anchor : HeadHash D) : ChainVerdict :=
  verifyHeadChainCheckedLoop heads anchor none

/-- A head is linked to another and has the next number. -/
def Next (prev head : RefHead D) : Prop :=
  head.prevHeadHash = prev.hash ∧ head.seq.toNat = prev.seq.toNat + 1

instance : DecidableRel (Next (D := D)) := fun prev head =>
  inferInstanceAs (Decidable (head.prevHeadHash = prev.hash ∧ _))

/-- Heads that are linked from an anchor and numbered without gaps, from any number on. -/
structure Successive (anchor : HeadHash D) (heads : List (RefHead D)) : Prop where
  encodable : ∀ head ∈ heads, head.Encodable
  anchored : ∀ first ∈ heads.head?, first.prevHeadHash = anchor
  chain : heads.IsChain Next

/-- Successive heads from the zero digest whose first number is not one. -/
def StartsElsewhere (heads : List (RefHead D)) : Prop :=
  Successive Sha512.zero heads ∧ ∃ first ∈ heads.head?, first.seq ≠ 1

/-- Linked and numbered heads up to the last 64-bit number, and a head linked to that. -/
def PassesLastNumber (heads : List (RefHead D)) : Prop :=
  ∃ front last next back, heads = front ++ last :: next :: back ∧
    (∀ head ∈ front ++ [last], head.Encodable) ∧ (front ++ [last]).IsChain Next ∧
    last.seq.toNat + 1 = 2 ^ 64 ∧ next.prevHeadHash = last.hash

/-- Heads from the zero digest that go past the last 64-bit number. -/
def RunsPastEnd (heads : List (RefHead D)) : Prop :=
  (∀ first ∈ heads.head?, first.prevHeadHash = Sha512.zero) ∧ PassesLastNumber heads

variable {heads rest : List (RefHead D)} {first head : RefHead D} {anchor : HeadHash D}

/-- A head after another passes when it is the next one. -/
theorem verifyHeadChainCheckedLoop_cons_eq_ok_iff :
    verifyHeadChainCheckedLoop (head :: rest) first.hash (some first.seq) = .returned (.ok ()) ↔
      Next first head ∧ head.Encodable ∧
        verifyHeadChainCheckedLoop rest head.hash (some head.seq) = .returned (.ok ()) := by
  have hbound := head.seq.toNat_lt
  rw [verifyHeadChainCheckedLoop, Next]
  split_ifs with hbroken hfits hgap hencodable
  · exact iff_of_false (by simp) fun h => hbroken h.1.1
  · refine iff_of_false (by simp) fun h => hgap ?_
    rw [← UInt64.toNat_inj, h.1.2, UInt64.toNat_add, UInt64.toNat_one, Nat.mod_eq_of_lt hfits]
  · have hseq : head.seq.toNat = first.seq.toNat + 1 := by
      rw [not_not.mp hgap, UInt64.toNat_add, UInt64.toNat_one, Nat.mod_eq_of_lt hfits]
    simp [not_not.mp hbroken, hseq, hencodable]
  · exact iff_of_false (by simp) fun h => hencodable h.2.1
  · exact iff_of_false (by simp) fun h => hfits (by omega)

theorem verifyHeadChainCheckedLoop_eq_ok_iff :
    verifyHeadChainCheckedLoop rest first.hash (some first.seq) = .returned (.ok ()) ↔
      (∀ head ∈ rest, head.Encodable) ∧ (first :: rest).IsChain Next := by
  induction rest generalizing first with
  | nil => simp [verifyHeadChainCheckedLoop]
  | cons head rest ih =>
    rw [verifyHeadChainCheckedLoop_cons_eq_ok_iff, ih, List.forall_mem_cons,
      List.isChain_cons_cons]
    tauto

/-- Which lists of heads the reader takes for a chain. -/
theorem verifyHeadChainChecked_eq_ok_iff :
    verifyHeadChainChecked heads anchor = .returned (.ok ()) ↔ Successive anchor heads := by
  have hfields : Successive anchor heads ↔ (∀ head ∈ heads, head.Encodable) ∧
      (∀ first ∈ heads.head?, first.prevHeadHash = anchor) ∧ heads.IsChain Next :=
    ⟨fun h => ⟨h.encodable, h.anchored, h.chain⟩, fun ⟨a, b, c⟩ => ⟨a, b, c⟩⟩
  rw [hfields, verifyHeadChainChecked]
  cases heads with
  | nil => simp [verifyHeadChainCheckedLoop]
  | cons first rest =>
    rw [verifyHeadChainCheckedLoop]
    simp only [List.head?_cons, Option.mem_def, Option.some.injEq, forall_eq', List.forall_mem_cons]
    split_ifs with hbroken hencodable
    · exact iff_of_false (by simp) fun h => hbroken h.2.1
    · rw [verifyHeadChainCheckedLoop_eq_ok_iff]
      have hanchored := not_not.mp hbroken
      tauto
    · exact iff_of_false (by simp) fun h => hencodable h.1.1

omit [DecidableEq D] in
theorem not_passesLastNumber_singleton : ¬ PassesLastNumber [first] := by
  intro ⟨front, last, next, back, heq, _⟩
  have hlength := congrArg List.length heq
  simp only [List.length_append, List.length_cons, List.length_nil] at hlength
  omega

omit [Sha512 D] [DecidableEq D] in
/-- Where heads are split after one that has a successor, the part before begins as they do. -/
theorem head?_concat_of_eq {front back : List (RefHead D)} {last : RefHead D}
    (h : first :: rest = front ++ last :: back) : (front ++ [last]).head? = some first := by
  cases front with
  | nil => exact congrArg some (List.cons.inj h).1.symm
  | cons other front => exact congrArg some (List.cons.inj h).1.symm

omit [DecidableEq D] in
theorem PassesLastNumber.encodable_first (h : PassesLastNumber (first :: rest)) :
    first.Encodable := by
  obtain ⟨front, last, next, back, heq, hencodable, _⟩ := h
  exact hencodable first (List.mem_of_head? (head?_concat_of_eq heq))

omit [DecidableEq D] in
/-- Either the first head has the last number, or the heads after it go past it. -/
theorem passesLastNumber_cons_cons_iff :
    PassesLastNumber (first :: head :: rest) ↔ first.Encodable ∧
      (first.seq.toNat + 1 = 2 ^ 64 ∧ head.prevHeadHash = first.hash ∨
        Next first head ∧ PassesLastNumber (head :: rest)) := by
  constructor
  · intro h
    refine ⟨h.encodable_first, ?_⟩
    obtain ⟨front, last, next, back, heq, hencodable, hchain, hlast, hnext⟩ := h
    cases front with
    | nil =>
      obtain ⟨rfl, hrest⟩ := List.cons.inj heq
      obtain ⟨rfl, _⟩ := List.cons.inj hrest
      exact .inl ⟨hlast, hnext⟩
    | cons other front =>
      obtain ⟨rfl, hrest⟩ := List.cons.inj heq
      obtain ⟨hstep, hchain⟩ := List.isChain_cons.mp hchain
      refine .inr ⟨hstep head (head?_concat_of_eq hrest), front, last, next, back, hrest, ?_,
        hchain, hlast, hnext⟩
      exact fun h hmem => hencodable h (List.mem_cons_of_mem _ hmem)
  · rintro ⟨hfirst,
      ⟨hlast, hnext⟩ | ⟨hstep, front, last, next, back, heq, hencodable, hchain, hend⟩⟩
    · exact ⟨[], first, head, rest, rfl, by simpa using hfirst, List.IsChain.singleton _, hlast,
        hnext⟩
    · refine ⟨first :: front, last, next, back, by rw [heq]; rfl, ?_, ?_, hend⟩
      · rw [List.cons_append, List.forall_mem_cons]
        exact ⟨hfirst, hencodable⟩
      · refine List.isChain_cons.mpr ⟨fun y hy => ?_, hchain⟩
        obtain rfl := Option.some.inj ((head?_concat_of_eq heq).symm.trans hy)
        exact hstep

theorem verifyHeadChainCheckedLoop_eq_panicked_iff (hfirst : first.Encodable) :
    verifyHeadChainCheckedLoop rest first.hash (some first.seq) = .panicked overflowText ↔
      PassesLastNumber (first :: rest) := by
  induction rest generalizing first with
  | nil => exact iff_of_false (by simp [verifyHeadChainCheckedLoop]) not_passesLastNumber_singleton
  | cons head rest ih =>
    have htext : ("opaque length fits u32" : String) ≠ overflowText := by decide
    have hbound := head.seq.toNat_lt
    rw [passesLastNumber_cons_cons_iff, verifyHeadChainCheckedLoop, Next]
    split_ifs with hbroken hfits hgap hencodable
    · exact iff_of_false (by simp) fun h => hbroken (h.2.elim And.right fun h => h.1.1)
    · refine iff_of_false (by simp) fun h => ?_
      rcases h.2 with hlast | hstep
      · omega
      · apply hgap
        rw [← UInt64.toNat_inj, hstep.1.2, UInt64.toNat_add, UInt64.toNat_one,
          Nat.mod_eq_of_lt hfits]
    · have hseq : head.seq.toNat = first.seq.toNat + 1 := by
        rw [not_not.mp hgap, UInt64.toNat_add, UInt64.toNat_one, Nat.mod_eq_of_lt hfits]
      rw [ih hencodable]
      simp [not_not.mp hbroken, hseq, hfirst]
      omega
    · refine iff_of_false (by simpa using htext) fun h => ?_
      rcases h.2 with hlast | hstep
      · omega
      · exact hencodable hstep.2.encodable_first
    · refine iff_of_true rfl ⟨hfirst, .inl ⟨?_, not_not.mp hbroken⟩⟩
      have hlast := first.seq.toNat_lt
      omega

/-- When the reader's addition overflows. -/
theorem verifyHeadChainChecked_eq_panicked_iff :
    verifyHeadChainChecked heads Sha512.zero = .panicked overflowText ↔ RunsPastEnd heads := by
  rw [verifyHeadChainChecked, RunsPastEnd]
  cases heads with
  | nil =>
    refine iff_of_false (by simp [verifyHeadChainCheckedLoop]) fun h => ?_
    obtain ⟨front, last, next, back, heq, _⟩ := h.2
    simp at heq
  | cons first rest =>
    have htext : ("opaque length fits u32" : String) ≠ overflowText := by decide
    rw [verifyHeadChainCheckedLoop]
    simp only [List.head?_cons, Option.mem_def, Option.some.injEq, forall_eq']
    split_ifs with hbroken hencodable
    · exact iff_of_false (by simp) fun h => hbroken h.1
    · rw [verifyHeadChainCheckedLoop_eq_panicked_iff hencodable]
      exact (and_iff_right (not_not.mp hbroken)).symm
    · exact iff_of_false (by simpa using htext) fun h => hencodable h.2.encodable_first

/-! ### Logs -/

variable {log : List (RefHead D)}

omit [DecidableEq D] in
theorem Chained.successive (h : Chained heads) : Successive Sha512.zero heads where
  encodable := h.encodable
  anchored := by
    intro first hfirst
    rw [List.head?_eq_getElem?] at hfirst
    exact h.linkedHeads.first hfirst
  chain := by
    rw [List.isChain_iff_getElem]
    intro i hi
    have hfirst := List.getElem?_eq_getElem (Nat.lt_of_succ_lt hi)
    have hsecond := List.getElem?_eq_getElem hi
    refine ⟨h.linkedHeads.link hfirst hsecond, ?_⟩
    rw [(h.getElem?_eq_some_iff.mp hfirst).2, (h.getElem?_eq_some_iff.mp hsecond).2]

omit [DecidableEq D] in
theorem Chained.seq_first (h : Chained heads) : ∀ first ∈ heads.head?, first.seq = 1 := by
  intro first hfirst
  rw [List.head?_eq_getElem?] at hfirst
  exact UInt64.toNat_inj.mp (h.getElem?_eq_some_iff.mp hfirst).2

omit [DecidableEq D] in
/-- Successive heads that start at one are a log. -/
theorem Successive.chained (h : Successive Sha512.zero heads)
    (hone : ∀ first ∈ heads.head?, first.seq = 1) : Chained heads := by
  induction heads using List.reverseRecOn with
  | nil => exact .nil
  | append_singleton log head ih =>
    obtain ⟨hencodable, hanchored, hchain⟩ := h
    obtain ⟨hfront, _, hlast⟩ := List.isChain_append.mp hchain
    have hhead := hencodable head (by simp)
    cases log with
    | nil =>
      exact Chained.nil.concat hhead (hanchored head rfl)
        (congrArg UInt64.toNat (hone head rfl))
    | cons first rest =>
      have hlog : Chained (first :: rest) :=
        ih ⟨fun h hmem => hencodable h (List.mem_append_left _ hmem), hanchored, hfront⟩ hone
      -- the head is the next one after the last of the log
      obtain ⟨last, hgetLast⟩ : ∃ last, (first :: rest).getLast? = some last :=
        ⟨_, List.getLast?_eq_some_getLast (List.cons_ne_nil first rest)⟩
      obtain ⟨hprev, hseq⟩ := hlast last hgetLast head rfl
      refine hlog.concat hhead ?_ ?_
      · rw [hprev, lastHash, hgetLast]
        rfl
      · rw [hseq, hlog.seq_of_getLast? hgetLast]

/-- The reader accepts every run of a log from the hash before it. -/
theorem Follows.verifyHeadChain_eq_ok (h : Follows log anchor heads) (hlog : Chained log) :
    verifyHeadChain heads anchor = .ok () := by
  refine verifyHeadChainLoop_eq_ok (h.linkedHeads hlog) ?_ (fun _ hnone => by cases hnone)
  obtain ⟨before, after, rfl, -⟩ := h
  have hchain := hlog.successive.chain.infix ⟨before, after, rfl⟩
  refine hchain.imp fun prev next hnext => ?_
  rw [← UInt64.toNat_inj, hnext.2, UInt64.toNat_add, UInt64.toNat_one, Nat.mod_eq_of_lt]
  rw [← hnext.2]
  exact next.seq.toNat_lt

end Verdicts

section Host

variable {D : Type} [Sha512 D] [DecidableEq D] [DigestBytes D] [LegacyHeads D]

/-- A host without heads. -/
def HeadStore.new : HeadStore := fun _ => .empty

/-- Append heads one after the other, as long as they are accepted. -/
def appendAll (store : HeadStore) : List (RefHead D) → Except (StorageError D) HeadStore
  | [] => .ok store
  | head :: rest =>
    match casAppend store head with
    | (.error e, _) => .error e
    | (.ok _, store) => appendAll store rest

/-- The reader takes a list for a chain from the zero digest exactly when a repository
without heads accepts its heads one after the other, and its addition does not overflow. -/
def VerifiesAppended (heads : List (RefHead D)) : Prop :=
  (verifyHeadChainChecked heads Sha512.zero = .returned (.ok ()) ↔
      ∃ store, appendAll .new heads = .ok store) ∧
    verifyHeadChainChecked heads Sha512.zero ≠ .panicked overflowText

variable {log heads : List (RefHead D)} {head : RefHead D} {repo : RepoId} {store : HeadStore}

omit [DecidableEq D] [DigestBytes D] [LegacyHeads D] in
theorem chained_concat_iff : Chained (log ++ [head]) ↔ Chained log ∧ Accepts log head := by
  constructor
  · intro h
    have hlog : Chained log := by
      have htake := h.take log.length
      rwa [List.take_left] at htake
    generalize heq : log ++ [head] = whole at h
    cases h with
    | nil => exact absurd heq (by simp)
    | concat _ hencodable hprev hseq =>
      obtain ⟨rfl, hhead⟩ := List.append_inj' heq rfl
      obtain rfl := List.singleton_inj.mp hhead
      exact ⟨hlog, hencodable, hprev, hseq⟩
  · intro ⟨hlog, hencodable, hprev, hseq⟩
    exact hlog.concat hencodable hprev hseq

/-- The heads a repository accepts one after the other are those that continue its log. -/
theorem exists_appendAll_iff (h : Holds (store repo) log)
    (hrepo : ∀ head ∈ heads, head.repoId = repo) :
    (∃ final, appendAll store heads = .ok final) ↔ Chained (log ++ heads) := by
  induction heads generalizing store log with
  | nil =>
    rw [List.append_nil]
    exact iff_of_true ⟨store, rfl⟩ h.chained
  | cons head rest ih =>
    obtain ⟨rfl, hrest⟩ := List.forall_mem_cons.mp hrepo
    have hsplit : log ++ head :: rest = (log ++ [head]) ++ rest := by simp
    by_cases haccepts : Accepts log head
    · have hplan := (planAppend_eq_ok_iff h).mpr ⟨haccepts, rfl, rfl⟩
      have hnext : Holds ((appendWrites head.seq (encodeRefHead head)).foldl HeadsDir.write
          (store head.repoId)) (log ++ [head]) := h.append haccepts.1 haccepts.2.1 haccepts.2.2
      rw [appendAll, casAppend_of_plan hplan, hsplit]
      refine ih ?_ hrest
      rwa [Function.update_self]
    · refine iff_of_false ?_ fun hchained => ?_
      · rintro ⟨final, hfinal⟩
        rw [appendAll, casAppend] at hfinal
        cases hplan : planAppend (store head.repoId) head with
        | error e => rw [hplan] at hfinal; cases hfinal
        | ok result =>
          exact haccepts ((accepts_iff_exists_planAppend h).mpr ⟨_, _, hplan⟩)
      · have hfront := hchained.take (log ++ [head]).length
        rw [hsplit, List.take_left] at hfront
        exact haccepts (chained_concat_iff.mp hfront).2

/-- The reader and the host agree on a list of a repository's heads, unless it is linked and
numbered but starts at another number than one, or goes past the last number. -/
theorem verifiesAppended_iff (hrepo : ∀ head ∈ heads, head.repoId = repo) :
    VerifiesAppended heads ↔ ¬ StartsElsewhere heads ∧ ¬ RunsPastEnd heads := by
  have hempty : Holds (HeadStore.new repo) ([] : List (RefHead D)) := holds_empty
  have hhost : (∃ final, appendAll .new heads = .ok final) ↔ Chained heads :=
    exists_appendAll_iff hempty hrepo
  rw [VerifiesAppended, ne_eq, verifyHeadChainChecked_eq_panicked_iff,
    verifyHeadChainChecked_eq_ok_iff, hhost]
  refine and_congr_left fun _ => ?_
  constructor
  · rintro hagree ⟨hsuccessive, first, hfirst, hother⟩
    exact hother ((hagree.mp hsuccessive).seq_first first hfirst)
  · intro hstarts
    refine ⟨fun hsuccessive => hsuccessive.chained ?_, Chained.successive⟩
    intro first hfirst
    by_contra hother
    exact hstarts ⟨hsuccessive, first, hfirst, hother⟩

end Host

section Sample

attribute [local instance] leadingSha512 leadingDigestBytes

/-- A head of one repository with the given number and predecessor. -/
def numberedHead (seq : UInt64) (prev : Digest) : RefHead Digest where
  repoId := Vector.replicate 32 5
  seq := seq
  encRefs := [1]
  bundleRoot := Sha512.zero
  dekWrap := [2]
  prevHeadHash := prev
  mlsEpoch := 0
  epochTag := [3]
  nonFf := false
  pusherSig := [4]
  adminCosig := none

theorem encodable_numberedHead (seq : UInt64) (prev : Digest) :
    (numberedHead seq prev).Encodable := by
  constructor <;> simp [numberedHead]

/-- Two heads numbered from a first number on. -/
def twoHeads (seq : UInt64) : List (RefHead Digest) :=
  [numberedHead seq Sha512.zero, numberedHead (seq + 1) (numberedHead seq Sha512.zero).hash]

theorem verifyHeadChain_twoHeads (seq : UInt64) :
    verifyHeadChain (twoHeads seq) Sha512.zero = .ok () := by
  simp [verifyHeadChain, verifyHeadChainLoop, twoHeads, numberedHead]

theorem successive_twoHeads {seq : UInt64} (h : seq.toNat + 1 < 2 ^ 64) :
    Successive Sha512.zero (twoHeads seq) where
  encodable := by simp [twoHeads, encodable_numberedHead]
  anchored := by simp [twoHeads, numberedHead]
  chain := by
    have hnext : (seq + 1).toNat = seq.toNat + 1 := by
      rw [UInt64.toNat_add, UInt64.toNat_one, Nat.mod_eq_of_lt h]
    exact List.isChain_pair.mpr ⟨rfl, hnext⟩

theorem chained_twoHeads : Chained (twoHeads 1) :=
  (Chained.nil.concat (encodable_numberedHead 1 _) rfl rfl).concat
    (encodable_numberedHead 2 _) rfl rfl

/-- A third head, with the given refs. -/
def thirdHead (encRefs : Bytes) : RefHead Digest :=
  { numberedHead 3 (numberedHead 2 (numberedHead 1 Sha512.zero).hash).hash with
    encRefs := encRefs }

/-- Three heads. What is served for another third one forks the log there. -/
def threeHeads (encRefs : Bytes) : List (RefHead Digest) := twoHeads 1 ++ [thirdHead encRefs]

theorem chained_threeHeads {encRefs : Bytes} (hshort : encRefs.length < 2 ^ 32) :
    Chained (threeHeads encRefs) := by
  have hencodable : (thirdHead encRefs).Encodable := by
    constructor <;> simp [thirdHead, numberedHead]
    exact hshort
  exact chained_twoHeads.concat hencodable rfl rfl

theorem idealHashOn_threeHeads :
    IdealHashOn {head | head ∈ threeHeads [1] ∨ head ∈ threeHeads [9]} where
  injOn := by
    have hdistinct : ∀ a ∈ threeHeads [1] ++ threeHeads [9],
        ∀ b ∈ threeHeads [1] ++ threeHeads [9], a.hash = b.hash → a = b := by decide +kernel
    intro a ha b hb
    exact hdistinct a (List.mem_append.mpr ha) b (List.mem_append.mpr hb)
  ne_zero := by
    have hall : ∀ a ∈ threeHeads [1] ++ threeHeads [9], a.hash ≠ Sha512.zero := by decide +kernel
    exact fun a ha => hall a (List.mem_append.mpr ha)

/-- A host that serves another third head is accepted, and has to serve the first two as they
are. -/
theorem take_eq_of_verifyHeadChain_threeHeads :
    verifyHeadChain (threeHeads [9]) Sha512.zero = .ok () ∧
      (threeHeads [9])[2]? ≠ (threeHeads [1])[2]? ∧
      (threeHeads [9]).take 2 = (threeHeads [1]).take 2 := by
  have hlog : Chained (threeHeads [1]) := chained_threeHeads (by decide)
  have hserved : Chained (threeHeads [9]) := chained_threeHeads (by decide)
  have hfollows : Follows (threeHeads [1]) Sha512.zero (threeHeads [1]) :=
    ⟨[], [], by simp, rfl⟩
  have hideal : IdealChainOn {head | head ∈ threeHeads [1] ∨ head ∈ threeHeads [9]} := by
    apply idealChainOn_of_logs idealHashOn_threeHeads
    rintro head (hmem | hmem)
    · exact ⟨_, hlog, hmem, fun _ => .inl⟩
    · exact ⟨_, hserved, hmem, fun _ => .inr⟩
  have haccepted : verifyHeadChain (threeHeads [9]) Sha512.zero = .ok () :=
    Follows.verifyHeadChain_eq_ok ⟨[], [], by simp, rfl⟩ hserved
  have hsecond : ∀ encRefs, (threeHeads encRefs)[1]? =
      some (numberedHead 2 (numberedHead 1 Sha512.zero).hash) := fun _ => rfl
  refine ⟨haccepted, by decide +kernel, ?_⟩
  exact (take_eq_of_verifyHeadChain hlog hfollows hideal haccepted (hsecond [1]) (hsecond [9])).2

attribute [local instance] noLegacyHeads

/-- The reader takes heads numbered from five on for a chain, which the host refuses. Past
the last number its addition overflows: it panics, or wraps around to zero and goes on. -/
theorem not_verifiesAppended_twoHeads :
    verifyHeadChainChecked (twoHeads 5) Sha512.zero = .returned (.ok ()) ∧
      ¬ VerifiesAppended (twoHeads 5) ∧
      verifyHeadChainChecked (twoHeads (.ofNat (2 ^ 64 - 1))) Sha512.zero = .panicked overflowText ∧
      verifyHeadChain (twoHeads (.ofNat (2 ^ 64 - 1))) Sha512.zero = .ok () ∧
      ¬ VerifiesAppended (twoHeads (.ofNat (2 ^ 64 - 1))) := by
  have haccepted : verifyHeadChainChecked (twoHeads 5) Sha512.zero = .returned (.ok ()) :=
    verifyHeadChainChecked_eq_ok_iff.mpr (successive_twoHeads (by decide))
  have hlast : PassesLastNumber (twoHeads (.ofNat (2 ^ 64 - 1))) :=
    ⟨[], _, _, [], rfl, by simp [encodable_numberedHead], List.IsChain.singleton _, rfl, rfl⟩
  have hpanicked : verifyHeadChainChecked (twoHeads (.ofNat (2 ^ 64 - 1))) Sha512.zero =
      .panicked overflowText :=
    verifyHeadChainChecked_eq_panicked_iff.mpr ⟨by simp [twoHeads, numberedHead], hlast⟩
  refine ⟨haccepted, fun h => ?_, hpanicked, verifyHeadChain_twoHeads _, fun h => h.2 hpanicked⟩
  obtain ⟨store, hstore⟩ := h.1.mp haccepted
  have hrefused : ¬ Chained ([] ++ twoHeads 5) := by
    intro hchained
    have hone := hchained.seq_first (numberedHead 5 Sha512.zero) rfl
    cases hone
  have hrepo : ∀ head ∈ twoHeads 5, head.repoId = Vector.replicate 32 5 := by decide +kernel
  have hempty : Holds (HeadStore.new (Vector.replicate 32 5)) ([] : List (RefHead Digest)) :=
    holds_empty
  exact hrefused ((exists_appendAll_iff hempty hrepo).mp ⟨store, hstore⟩)

theorem verifiesAppended_iff_twoHeads :
    VerifiesAppended (twoHeads 1) ↔
      ¬ StartsElsewhere (twoHeads 1) ∧ ¬ RunsPastEnd (twoHeads 1) := by
  have hrepo : ∀ head ∈ twoHeads 1, head.repoId = Vector.replicate 32 5 := by decide +kernel
  exact verifiesAppended_iff hrepo

end Sample

end SafeHub
