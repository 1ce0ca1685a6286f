import SafeHub.Crypto.MlDsa
import Mathlib.Data.List.Forall2

/-!
# Client errors
-/

namespace SafeHub

/-- AEAD failures. -/
inductive AeadError
  | encrypt
  | decrypt
  | counterExhausted
  deriving DecidableEq, Repr

/-- Client-side failures. -/
inductive ClientError
  | config (message : String)
  | http (message : String)
  | api (status : ℕ) (body : String)
  | serde
  | crypto (error : CryptoError)
  | aead (error : AeadError)
  | other (message : String)
  deriving DecidableEq, Repr

/-- The text an error of the crypto layer is reported with. -/
def CryptoError.text : CryptoError → String
  | .notAdmin => "not an admin"
  | .unknownMember => "unknown member"
  | .epochOutOfWindow epoch lo hi => s!"epoch {epoch} outside window [{lo}, {hi}]"
  | .kdf => "kdf failed"
  | .mls message => s!"mls adapter: {message}"

/-- The result of an operation of the crypto layer, its error reported as text. -/
def orOther {α : Type*} : Except CryptoError α → Except ClientError α
  | .ok a => .ok a
  | .error e => .error (.other e.text)

@[simp] theorem orOther_eq_ok_iff {α : Type*} {r : Except CryptoError α} {a : α} :
    orOther r = .ok a ↔ r = .ok a := by
  cases r <;> simp [orOther]

theorem toOption_eq_some_iff {ε α : Type} {result : Except ε α} {value : α} :
    result.toOption = some value ↔ result = .ok value := by
  cases result <;> simp [Except.toOption]

/-- From a successful chain, the success of its first part. -/
theorem bind_eq_ok_iff {ε α β : Type} {first : Except ε α} {next : α → Except ε β} {b : β} :
    (first >>= next) = .ok b ↔ ∃ a, first = .ok a ∧ next a = .ok b := by
  cases first with
  | error e => exact iff_of_false nofun fun ⟨_, h, _⟩ => nomatch h
  | ok a => exact ⟨fun h => ⟨a, rfl, h⟩, fun ⟨_, h, hb⟩ => Except.ok.inj h ▸ hb⟩

theorem mapError_eq_ok_iff {ε ε' α : Type} {f : ε → ε'} {r : Except ε α} {a : α} :
    r.mapError f = .ok a ↔ r = .ok a := by
  cases r <;> simp [Except.mapError]

/-- A successful pass over a list has a result for every element. -/
theorem mapM_eq_ok_iff {ε α β : Type} {f : α → Except ε β} {as : List α} {bs : List β} :
    as.mapM f = .ok bs ↔ List.Forall₂ (fun a b => f a = .ok b) as bs := by
  induction as generalizing bs with
  | nil =>
    rw [List.mapM_nil, List.forall₂_nil_left_iff]
    exact ⟨fun h => (Except.ok.inj h).symm, fun h => h ▸ rfl⟩
  | cons a as ih =>
    rw [List.mapM_cons, bind_eq_ok_iff, List.forall₂_cons_left_iff]
    constructor
    · intro ⟨b, hb, hrest⟩
      obtain ⟨rest, hmap, hcons⟩ := bind_eq_ok_iff.mp hrest
      exact ⟨b, rest, hb, ih.mp hmap, (Except.ok.inj hcons).symm⟩
    · intro ⟨b, rest, hb, hmap, hcons⟩
      exact ⟨b, hb, bind_eq_ok_iff.mpr ⟨rest, ih.mpr hmap, hcons ▸ rfl⟩⟩

/-- A traversal succeeds when it succeeds on every element. -/
theorem exists_mapM_eq_ok_iff {ε α β : Type} {f : α → Except ε β} {as : List α} :
    (∃ bs, as.mapM f = .ok bs) ↔ ∀ a ∈ as, ∃ b, f a = .ok b := by
  simp only [mapM_eq_ok_iff]
  induction as with
  | nil => simp
  | cons a as ih =>
    simp only [List.forall₂_cons_left_iff, List.forall_mem_cons, ← ih]
    constructor
    · rintro ⟨_, b, bs, hb, hbs, rfl⟩
      exact ⟨⟨b, hb⟩, bs, hbs⟩
    · rintro ⟨⟨b, hb⟩, bs, hbs⟩
      exact ⟨_, b, bs, hb, hbs, rfl⟩

/-- A check of every element succeeds when each one does. -/
theorem forM_eq_ok_iff {ε α : Type} {f : α → Except ε Unit} {as : List α} :
    as.forM f = .ok () ↔ ∀ a ∈ as, f a = .ok () := by
  induction as with
  | nil => exact iff_of_true rfl fun _ hmem => nomatch hmem
  | cons a as ih =>
    change (f a >>= fun _ => as.forM f) = .ok () ↔ _
    rw [bind_eq_ok_iff, List.forall_mem_cons]
    exact ⟨fun ⟨_, hfirst, hrest⟩ => ⟨hfirst, ih.mp hrest⟩,
      fun ⟨hfirst, hrest⟩ => ⟨(), hfirst, ih.mpr hrest⟩⟩

/-- In two matching lists, every element of the second has a partner. -/
theorem exists_of_forall₂_mem_right {α β : Type} {r : α → β → Prop} {as : List α} {bs : List β}
    (h : List.Forall₂ r as bs) {b : β} (hb : b ∈ bs) : ∃ a ∈ as, r a b := by
  induction h with
  | nil => cases hb
  | cons hfirst _ ih =>
    rcases List.mem_cons.mp hb with rfl | hrest
    · exact ⟨_, List.mem_cons_self, hfirst⟩
    · obtain ⟨a, ha, hab⟩ := ih hrest
      exact ⟨a, List.mem_cons_of_mem _ ha, hab⟩

/-- The server rejected a head append because of a compare-and-swap conflict. -/
def ClientError.isCasConflict : ClientError → Bool
  | .api status body => status == 409 || body.contains "cas conflict"
  | _ => false

end SafeHub
