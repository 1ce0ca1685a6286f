import SafeHub.Client.Fetch
import SafeHub.Server.HostRoutes
import SafeHub.Storage.HeadLogCrash

/-!
# Listing heads page by page

The client asks for the heads after a cursor, a page at a time, and goes on behind the last
head of a full page. The server reads all heads after the cursor and cuts the list to the
length that was asked for, within its own bound. A server that answers so hands out the
whole list, whatever the two lengths are. Whatever a server answers, the cursor moves up with
every page, so there are no more requests than sequence numbers left.

## Main definitions

* `HeadsCursor`, `headsPass` — the loop between two requests, and what it does with a reply
* `headsLoop` — the loop with a bound on its requests
* `askedCursors` — the cursors it asks with
* `headsReply` — what the server answers

## Main results

* `headsLoop_isSome` — the loop ends
* `headsLoop_eq_some` — the loop is the client's
* `headsLoop_complete` — pages hand out the whole list, and any replies come to an end
-/

namespace SafeHub

open Std (ExtTreeMap)

/-- Where the loop stands: how far it has read, and the heads it has. -/
structure HeadsCursor (D : Type) where
  cursor : UInt64
  all : List (RefHead D)

section Loop

variable {D : Type} {pageLen requests sent : ℕ} {s s' : HeadsCursor D}
  {server : ℕ → UInt64 → Except ClientError (List (RefHead D))}

/-- What the loop does with a reply: it ends, or it goes on behind the last head. -/
def headsPass (pageLen : ℕ) (reply : Except ClientError (List (RefHead D)))
    (s : HeadsCursor D) : Except ClientError (List (RefHead D)) ⊕ HeadsCursor D :=
  match reply with
  | .error e => .inl (.error e)
  | .ok heads =>
    match heads.getLast? with
    | none => .inl (.ok (s.all ++ heads))
    | some last =>
      -- a page that does not advance the cursor would loop forever
      if s.cursor < last.seq then
        if heads.length < pageLen then .inl (.ok (s.all ++ heads))
        else .inr ⟨last.seq, s.all ++ heads⟩
      else .inl (.ok (s.all ++ heads))

/-- The loop, for as many requests as given. The server may answer each as it likes. -/
def headsLoop (pageLen : ℕ) (server : ℕ → UInt64 → Except ClientError (List (RefHead D))) :
    (requests sent : ℕ) → HeadsCursor D → Option (Except ClientError (List (RefHead D)))
  | 0, _, _ => none
  | requests + 1, sent, s =>
    match headsPass pageLen (server sent s.cursor) s with
    | .inl result => some result
    | .inr s' => headsLoop pageLen server requests (sent + 1) s'

/-- The cursors of these requests. -/
def askedCursors (pageLen : ℕ) (server : ℕ → UInt64 → Except ClientError (List (RefHead D))) :
    (requests sent : ℕ) → HeadsCursor D → List UInt64
  | 0, _, _ => []
  | requests + 1, sent, s =>
    s.cursor :: match headsPass pageLen (server sent s.cursor) s with
      | .inl _ => []
      | .inr s' => askedCursors pageLen server requests (sent + 1) s'

/-- The loop goes on only when the cursor moves up. -/
theorem cursor_lt_of_headsPass {reply : Except ClientError (List (RefHead D))}
    (h : headsPass pageLen reply s = .inr s') : s.cursor < s'.cursor := by
  cases reply with
  | error e => cases h
  | ok heads =>
    rw [headsPass] at h
    cases hlast : heads.getLast? with
    | none =>
      rw [hlast] at h
      cases h
    | some last =>
      rw [hlast] at h
      dsimp only at h
      split_ifs at h with hmoves hshort
      obtain rfl := Sum.inr.inj h
      exact hmoves

/-- There are no more requests than sequence numbers behind the cursor. -/
theorem headsLoop_isSome (hleft : 2 ^ 64 - s.cursor.toNat ≤ requests) :
    (headsLoop pageLen server requests sent s).isSome := by
  induction requests generalizing sent s with
  | zero =>
    have hbound := s.cursor.toNat_lt
    omega
  | succ requests ih =>
    rw [headsLoop]
    cases hpass : headsPass pageLen (server sent s.cursor) s with
    | inl result => rfl
    | inr s' =>
      have hmoves := UInt64.lt_iff_toNat_lt.mp (cursor_lt_of_headsPass hpass)
      exact ih (by omega)

theorem cursor_le_of_mem_askedCursors {asked : UInt64}
    (h : asked ∈ askedCursors pageLen server requests sent s) : s.cursor ≤ asked := by
  induction requests generalizing sent s with
  | zero => cases h
  | succ requests ih =>
    rw [askedCursors] at h
    rcases List.mem_cons.mp h with rfl | hrest
    · exact UInt64.le_refl _
    · cases hpass : headsPass pageLen (server sent s.cursor) s with
      | inl result =>
        rw [hpass] at hrest
        cases hrest
      | inr s' =>
        rw [hpass] at hrest
        exact UInt64.le_trans (UInt64.le_of_lt (cursor_lt_of_headsPass hpass)) (ih hrest)

/-- The cursor moves up from request to request. -/
theorem askedCursors_pairwise :
    (askedCursors pageLen server requests sent s).Pairwise (· < ·) := by
  induction requests generalizing sent s with
  | zero => exact List.Pairwise.nil
  | succ requests ih =>
    rw [askedCursors]
    cases hpass : headsPass pageLen (server sent s.cursor) s with
    | inl result => exact List.pairwise_singleton _ _
    | inr s' =>
      refine List.Pairwise.cons (fun asked hasked => ?_) ih
      exact UInt64.lt_of_lt_of_le (cursor_lt_of_headsPass hpass)
        (cursor_le_of_mem_askedCursors hasked)

/-- With the client's page length, and for a server that answers every cursor once, the loop is
the one that a fetch reads its heads with. -/
theorem headsLoop_eq_some {page : UInt64 → Except ClientError (List (RefHead D))}
    (hleft : 2 ^ 64 - s.cursor.toNat ≤ requests) :
    headsLoop headsPageLen (fun _ => page) requests sent s =
      some (headsSinceLoop page s.cursor s.all) := by
  induction requests generalizing sent s with
  | zero =>
    have hbound := s.cursor.toNat_lt
    omega
  | succ requests ih =>
    rw [headsLoop, headsSinceLoop]
    cases hpage : page s.cursor with
    | error e => rfl
    | ok heads =>
      simp only [headsPass]
      cases hlast : heads.getLast? with
      | none => rfl
      | some last =>
        by_cases hmoves : s.cursor < last.seq
        · by_cases hshort : heads.length < headsPageLen
          · simp only [if_pos hmoves, if_pos hshort]
          · have hnext := UInt64.lt_iff_toNat_lt.mp hmoves
            simp only [if_pos hmoves, if_neg hshort]
            exact ih (by change _ - last.seq.toNat ≤ _; omega)
        · simp only [if_neg hmoves]

end Loop

/-! ### Pages of a list -/

section Pages

variable {D : Type} {log : List (RefHead D)} {last : RefHead D} {pageLen n : ℕ}

/-- In ascending order the heads behind a page are those after its last one. -/
theorem filter_after_last (h : log.Pairwise fun head next => head.seq < next.seq)
    (hlast : (log.take n).getLast? = some last) :
    (log.filter fun head => last.seq < head.seq) = log.drop n := by
  have hsplit := List.take_append_drop n log
  rw [← hsplit] at h
  obtain ⟨hpage, -, hbehind⟩ := List.pairwise_append.mp h
  have hmem := List.mem_of_getLast? hlast
  have hdropped : (log.take n).filter (fun head => last.seq < head.seq) = [] := by
    obtain ⟨front, hfront⟩ := List.getLast?_eq_some_iff.mp hlast
    rw [hfront, List.pairwise_append] at hpage
    rw [List.filter_eq_nil_iff, hfront]
    intro head hhead
    rw [decide_eq_true_eq, UInt64.not_lt]
    rcases List.mem_append.mp hhead with hin | hin
    · exact UInt64.le_of_lt (hpage.2.2 head hin last (List.mem_singleton.mpr rfl))
    · rw [List.mem_singleton.mp hin]
      exact UInt64.le_refl _
  have hkept : (log.drop n).filter (fun head => last.seq < head.seq) = log.drop n := by
    rw [List.filter_eq_self]
    exact fun head hhead => decide_eq_true (hbehind last hmem head hhead)
  conv_lhs => rw [← hsplit]
  rw [List.filter_append, hdropped, hkept, List.nil_append]

/-- A server that hands out pages of a list hands out all of it. -/
theorem headsLoop_of_pages (hascending : log.Pairwise fun head next => head.seq < next.seq)
    (hpage : 1 ≤ pageLen) {server : ℕ → UInt64 → Except ClientError (List (RefHead D))}
    (hserver : ∀ sent cursor,
      server sent cursor = .ok ((log.filter fun head => cursor < head.seq).take pageLen))
    {requests sent : ℕ} {s : HeadsCursor D} (hleft : 2 ^ 64 - s.cursor.toNat ≤ requests) :
    headsLoop pageLen server requests sent s =
      some (.ok (s.all ++ log.filter fun head => s.cursor < head.seq)) := by
  induction requests generalizing sent s with
  | zero =>
    have hbound := s.cursor.toNat_lt
    omega
  | succ requests ih =>
    rw [headsLoop, hserver]
    set rest := log.filter fun head => s.cursor < head.seq with hrest
    cases hlast : (rest.take pageLen).getLast? with
    | none =>
      have hnil : rest = [] := by
        rcases List.take_eq_nil_iff.mp (List.getLast?_eq_none_iff.mp hlast) with hzero | hnil
        · omega
        · exact hnil
      simp [headsPass, hnil]
    | some last =>
      have hmoves : s.cursor < last.seq := by
        have hmem := List.mem_of_mem_take (List.mem_of_getLast? hlast)
        exact of_decide_eq_true (List.mem_filter.mp hmem).2
      by_cases hshort : (rest.take pageLen).length < pageLen
      · have hall : rest.take pageLen = rest := by
          rw [List.length_take] at hshort
          exact List.take_of_length_le (by omega)
        rw [hall] at hlast hshort ⊢
        simp only [headsPass, hlast, if_pos hmoves, if_pos hshort]
      · -- behind a full page, the heads after its last one are left
        have hbehind : (log.filter fun head => last.seq < head.seq) = rest.drop pageLen := by
          rw [← filter_after_last (hascending.filter _) hlast, List.filter_filter]
          refine List.filter_congr fun head _ => ?_
          by_cases hafter : last.seq < head.seq
          · simp [hafter, UInt64.lt_trans hmoves hafter]
          · simp [hafter]
        have hnext := UInt64.lt_iff_toNat_lt.mp hmoves
        simp only [headsPass, hlast, if_pos hmoves, if_neg hshort]
        rw [ih (by change _ - last.seq.toNat ≤ _; omega)]
        dsimp only
        rw [hbehind, List.append_assoc, List.take_append_drop]

/-! ### The server's pages -/

variable [Sha512 D] [DigestBytes D] [LegacyHeads D]

/-- What a server with a bound on its pages answers a client that asks for some heads. -/
def headsReply (maxPage limit : ℕ) (listing : List (UInt64 × Bytes)) (after : UInt64) :
    Except ClientError (List (RefHead D)) :=
  match since (D := D) listing after with
  | .error _ => .error (.api 500 "")
  | .ok heads => .ok (heads.take (max 1 (min limit maxPage)))

/-- The server's route answers so, with its own bound. -/
theorem headsSince_eq_headsReply (host : HostState D) (repo : RepoId) (limit : ℕ)
    (after : UInt64) :
    (host.headsSince repo ⟨some after, some limit⟩).toOption =
      ((headsReply maxHeadsPage limit (host.heads repo).entries after).toOption).map .heads := by
  simp only [HostState.headsSince, headsReply, Option.getD_some]
  cases since (D := D) (host.heads repo).entries after with
  | error e => rfl
  | ok heads => rfl

/-- The loop over a server's pages, each cut from a listing of its own, returns what reading the
store at once returns. Whatever a server replies, the loop ends after no more requests than
there are sequence numbers left, each with a higher cursor. -/
theorem headsLoop_complete :
    (∀ (maxPage pageLen : ℕ), 1 ≤ pageLen → pageLen ≤ maxPage →
      ∀ (log : List (RefHead D)) (listings : ℕ → List (UInt64 × Bytes)),
      (∀ sent, ListsHeads (listings sent) log) → ∀ (after : UInt64) (sent : ℕ),
        ∃ heads, since (D := D) (listings sent) after = .ok heads ∧
          headsLoop pageLen (fun sent => headsReply maxPage pageLen (listings sent))
            (2 ^ 64 - after.toNat) 0 ⟨after, []⟩ = some (.ok heads)) ∧
    ∀ (pageLen : ℕ) (server : ℕ → UInt64 → Except ClientError (List (RefHead D)))
      (after : UInt64),
      (headsLoop pageLen server (2 ^ 64 - after.toNat) 0 ⟨after, []⟩).isSome ∧
      (askedCursors pageLen server (2 ^ 64 - after.toNat) 0 ⟨after, []⟩).Pairwise (· < ·) := by
  constructor
  · intro maxPage pageLen hpos hcap log listings hlistings after sent
    refine ⟨_, (hlistings sent).since_eq_ok after, ?_⟩
    refine headsLoop_of_pages (hlistings 0).ascending hpos (fun sent cursor => ?_) le_rfl
    rw [headsReply, (hlistings sent).since_eq_ok cursor]
    dsimp only
    rw [Nat.min_eq_left hcap, Nat.max_eq_right hpos]
  · exact fun pageLen server after => ⟨headsLoop_isSome le_rfl, askedCursors_pairwise⟩

end Pages

section Sample

attribute [local instance] leadingSha512 leadingDigestBytes noLegacyHeads

/-- A listing with three files, in no order. -/
def sampleListing : List (UInt64 × Bytes) :=
  [logEntry { sampleFirstHead [1] with seq := 5 }, logEntry (sampleFirstHead [1]),
    logEntry { sampleFirstHead [1] with seq := 2 }]

/-- The heads of these files. -/
def sampleListed : List (RefHead Digest) :=
  [sampleFirstHead [1], { sampleFirstHead [1] with seq := 2 },
    { sampleFirstHead [1] with seq := 5 }]

theorem listsHeads_sampleListing : ListsHeads sampleListing sampleListed where
  ascending := by decide
  files := by
    refine ⟨sampleListed.map logEntry, by decide +kernel, ?_⟩
    rw [List.forall₂_map_left_iff, List.forall₂_same]
    intro head hhead
    refine ⟨rfl, decodeHeadBytes_encodeRefHead ?_⟩
    rcases List.mem_cons.mp hhead with rfl | hhead
    · exact encodable_sampleFirstHead 1
    · rcases List.mem_pair.mp hhead with rfl | rfl <;> constructor <;> simp [sampleFirstHead]

/-- Pages of two, from a server that allows three, hand out three heads. -/
theorem headsLoop_complete_sampleListing :
    headsLoop 2 (fun _ => headsReply 3 2 sampleListing) (2 ^ 64) 0 ⟨0, []⟩ =
      some (.ok sampleListed) := by
  obtain ⟨heads, hheads, hloop⟩ := headsLoop_complete.1 3 2 (by decide) (by decide) sampleListed
    (fun _ => sampleListing) (fun _ => listsHeads_sampleListing) 0 0
  rw [listsHeads_sampleListing.since_eq_ok] at hheads
  obtain rfl := Except.ok.inj hheads
  exact hloop

end Sample

end SafeHub
