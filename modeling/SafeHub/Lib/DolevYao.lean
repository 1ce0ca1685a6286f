import Mathlib.Data.Set.Basic

/-!
# Symbolic secrecy

Messages as terms over fresh names, and what an attacker can derive from a set
of them when the primitives are ideal. Secrecy is proved by the closed-set
method: fix the names that have to stay hidden; a term is open if learning it
reveals nothing that depends on them; open terms derive open terms only.

## Main definitions

* `Term` — messages
* `Derives` — the attacker's deductions
* `Term.Open` — the terms that reveal no hidden name

## Main results

* `Derives.trans` — what follows from derivable messages is derivable
* `Derives.open_of_open` — open terms derive open terms only
-/

namespace DolevYao

variable {N L : Type*}

/-- Messages built with ideal primitives from fresh names. -/
inductive Term (N L : Type*)
  | name (n : N)
  /-- A public constant. -/
  | pub (label : L)
  | pair (fst snd : Term N L)
  /-- Key derivation, from a secret and a public label. -/
  | kdf (info : L) (secret : Term N L)
  | mac (key message : Term N L)
  /-- Authenticated encryption. -/
  | senc (key message : Term N L)
  /-- The public key of a private key. -/
  | pk (sk : Term N L)
  /-- Encryption to the holder of a private key. -/
  | aenc (sk message : Term N L)
  | sign (sk message : Term N L)
  deriving DecidableEq

/-- What an attacker who knows `known` can derive. -/
inductive Derives (known : Set (Term N L)) : Term N L → Prop
  | known {t} : t ∈ known → Derives known t
  | pub (label) : Derives known (.pub label)
  | pair {a b} : Derives known a → Derives known b → Derives known (.pair a b)
  | fst {a b} : Derives known (.pair a b) → Derives known a
  | snd {a b} : Derives known (.pair a b) → Derives known b
  | kdf (info) {s} : Derives known s → Derives known (.kdf info s)
  | mac {k m} : Derives known k → Derives known m → Derives known (.mac k m)
  | senc {k m} : Derives known k → Derives known m → Derives known (.senc k m)
  | sdec {k m} : Derives known (.senc k m) → Derives known k → Derives known m
  | pk {sk} : Derives known sk → Derives known (.pk sk)
  | aenc {sk m} : Derives known (.pk sk) → Derives known m → Derives known (.aenc sk m)
  | adec {sk m} : Derives known (.aenc sk m) → Derives known sk → Derives known m
  | sign {sk m} : Derives known sk → Derives known m → Derives known (.sign sk m)
  /-- A signature does not hide what it signs. -/
  | signed {sk m} : Derives known (.sign sk m) → Derives known m

/-- What follows from derivable messages is derivable. -/
theorem Derives.trans {known more : Set (Term N L)} {t : Term N L} (h : Derives more t)
    (hmore : ∀ m ∈ more, Derives known m) : Derives known t := by
  induction h with
  | known hmem => exact hmore _ hmem
  | pub label => exact .pub label
  | pair _ _ iha ihb => exact .pair iha ihb
  | fst _ ih => exact .fst ih
  | snd _ ih => exact .snd ih
  | kdf info _ ih => exact .kdf info ih
  | mac _ _ ihk ihm => exact .mac ihk ihm
  | senc _ _ ihk ihm => exact .senc ihk ihm
  | sdec _ _ ihc ihk => exact .sdec ihc ihk
  | pk _ ih => exact .pk ih
  | aenc _ _ ihp ihm => exact .aenc ihp ihm
  | adec _ _ ihc ihk => exact .adec ihc ihk
  | sign _ _ ihk ihm => exact .sign ihk ihm
  | signed _ ih => exact .signed ih

theorem Derives.mono {known more : Set (Term N L)} (hsub : known ⊆ more) {t : Term N L}
    (h : Derives known t) : Derives more t :=
  h.trans fun _ hmem => .known (hsub hmem)

/-- The terms that reveal nothing depending on a hidden name: a ciphertext is
open when its content is, or when its key is not. -/
def Term.Open (hidden : Set N) : Term N L → Prop
  | .name n => n ∉ hidden
  | .pub _ => True
  | .pair a b => a.Open hidden ∧ b.Open hidden
  | .kdf _ s => s.Open hidden
  | .mac _ _ => True
  | .senc k m => k.Open hidden → m.Open hidden
  | .pk _ => True
  | .aenc sk m => sk.Open hidden → m.Open hidden
  | .sign _ m => m.Open hidden

section Open

variable {hidden : Set N}

@[simp] theorem open_name {n : N} : (Term.name n : Term N L).Open hidden ↔ n ∉ hidden := Iff.rfl

@[simp] theorem open_pub {label : L} : (Term.pub label : Term N L).Open hidden := trivial

@[simp] theorem open_pair {a b : Term N L} :
    (Term.pair a b).Open hidden ↔ a.Open hidden ∧ b.Open hidden := Iff.rfl

@[simp] theorem open_kdf {info : L} {s : Term N L} :
    (Term.kdf info s).Open hidden ↔ s.Open hidden := Iff.rfl

@[simp] theorem open_mac {k m : Term N L} : (Term.mac k m).Open hidden := trivial

@[simp] theorem open_senc {k m : Term N L} :
    (Term.senc k m).Open hidden ↔ (k.Open hidden → m.Open hidden) := Iff.rfl

@[simp] theorem open_pk {sk : Term N L} : (Term.pk sk).Open hidden := trivial

@[simp] theorem open_aenc {sk m : Term N L} :
    (Term.aenc sk m).Open hidden ↔ (sk.Open hidden → m.Open hidden) := Iff.rfl

@[simp] theorem open_sign {sk m : Term N L} :
    (Term.sign sk m).Open hidden ↔ m.Open hidden := Iff.rfl

/-- The closed-set method: open knowledge derives open terms only. -/
theorem Derives.open_of_open {known : Set (Term N L)} {t : Term N L} (h : Derives known t)
    (hknown : ∀ m ∈ known, m.Open hidden) : t.Open hidden := by
  induction h with
  | known hmem => exact hknown _ hmem
  | pub label => exact open_pub
  | pair _ _ iha ihb => exact ⟨iha, ihb⟩
  | fst _ ih => exact ih.1
  | snd _ ih => exact ih.2
  | kdf info _ ih => exact ih
  | mac _ _ _ _ => exact open_mac
  | senc _ _ _ ihm => exact fun _ => ihm
  | sdec _ _ ihc ihk => exact ihc ihk
  | pk _ _ => exact open_pk
  | aenc _ _ _ ihm => exact fun _ => ihm
  | adec _ _ ihc ihk => exact ihc ihk
  | sign _ _ _ ihm => exact ihm
  | signed _ ih => exact ih

/-- A term that is not open stays out of reach of open knowledge. -/
theorem not_derives_of_not_open {known : Set (Term N L)} {t : Term N L}
    (ht : ¬ t.Open hidden) (hknown : ∀ m ∈ known, m.Open hidden) : ¬ Derives known t :=
  fun h => ht (h.open_of_open hknown)

end Open

end DolevYao
