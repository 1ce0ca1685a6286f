import SafeHub.Crypto.Aead

/-!
# What an accepted ciphertext was sealed from

The outer MAC of a ciphertext is over the associated data and the body, one after the other: the
nonce is not in its input, and neither is a length. The pad is bound to nonce, associated data and
length, and the commitment block shows whether a body was masked with it.

## Main definitions

* `Masked` — nonce, associated data and body of a ciphertext
* `Masked.macInput`, `Masked.padInput` — what the outer MAC and the pad key are made from
* `SealCall` — what was sealed

## Main results

* `exists_verified_of_openSealed` — what opens verifies, and shows the commitment block
* `accepted_was_sealed` — with an ideal MAC and pads that differ it was sealed
* `macInput_not_injective` — a nonce is not covered, and bytes slide
-/

namespace SafeHub.CommittingAead

open FixedWidth

/-- Nonce, associated data and body of a ciphertext. -/
structure Masked where
  nonce : Vector UInt8 12
  aad : Bytes
  body : Bytes
  deriving DecidableEq

namespace Masked

/-- What the outer MAC is over. -/
def macInput (c : Masked) : Bytes := c.aad ++ c.body

/-- What the pad key is derived from. -/
def padInput (c : Masked) : Bytes :=
  labelBytes "aead-pad" ++ c.nonce.toList ++ c.aad ++ beBytes 8 c.body.length

/-- The ciphertext with a tag. -/
def wire (c : Masked) (tag : Bytes) : Bytes := c.nonce.toList ++ c.body ++ tag

variable {c d : Masked}

/-- A nonce has one length, so what follows it is known. -/
theorem nonce_append_inj {n m : Vector UInt8 12} {xs ys : Bytes}
    (h : n.toList ++ xs = m.toList ++ ys) : n = m ∧ xs = ys := by
  have hlength : n.toList.length = m.toList.length := by
    rw [Vector.length_toList, Vector.length_toList]
  obtain ⟨hnonce, hrest⟩ := List.append_inj h hlength
  exact ⟨Vector.toList_inj.mp hnonce, hrest⟩

/-- Associated data of one length do not slide into the body. -/
theorem eq_of_macInput_eq (h : c.macInput = d.macInput) (hlength : c.aad.length = d.aad.length) :
    c.aad = d.aad ∧ c.body = d.body :=
  List.append_inj h hlength

/-- The pad is bound to the nonce and the associated data. -/
theorem eq_of_padInput_eq (h : c.padInput = d.padInput) : c.nonce = d.nonce ∧ c.aad = d.aad := by
  rw [padInput, padInput] at h
  have hfront := (List.append_inj' h (by rw [length_beBytes, length_beBytes])).1
  rw [List.append_assoc, List.append_assoc] at hfront
  exact nonce_append_inj (List.append_cancel_left hfront)

theorem ext_of_inputs_eq (hmac : c.macInput = d.macInput) (hpad : c.padInput = d.padInput) :
    c = d := by
  obtain ⟨hnonce, haad⟩ := eq_of_padInput_eq hpad
  have hbody := (eq_of_macInput_eq hmac (by rw [haad])).2
  cases c
  cases d
  simp only at hnonce haad hbody
  rw [hnonce, haad, hbody]

end Masked

/-- Ciphertexts with one MAC input: the second has another nonce, and in the third a byte of the
body has slid into the associated data. -/
theorem macInput_not_injective :
    ∃ c d e : Masked, c.macInput = d.macInput ∧ c.macInput = e.macInput ∧ c.nonce ≠ d.nonce ∧
      c.aad ≠ e.aad ∧ c.body ≠ e.body ∧
      ¬∀ c d : Masked, c.macInput = d.macInput → c = d := by
  have hnonce : (⟨Vector.replicate 12 0, [1], List.replicate 49 7⟩ : Masked).macInput =
      (⟨Vector.replicate 12 2, [1], List.replicate 49 7⟩ : Masked).macInput := rfl
  refine ⟨⟨Vector.replicate 12 0, [1], List.replicate 49 7⟩,
    ⟨Vector.replicate 12 2, [1], List.replicate 49 7⟩,
    ⟨Vector.replicate 12 0, [1, 7], List.replicate 48 7⟩, hnonce, rfl, by decide, by decide,
    by decide, fun h => ?_⟩
  exact absurd (congrArg Masked.nonce (h _ _ hnonce)) (by decide)

/-! ### Masks -/

theorem xorBytes_left_cancel {xs pad pad' : Bytes} (hpad : pad.length = xs.length)
    (hpad' : pad'.length = xs.length) (h : xorBytes xs pad = xorBytes xs pad') : pad = pad' := by
  induction xs generalizing pad pad' with
  | nil => rw [List.length_eq_zero_iff.mp hpad, List.length_eq_zero_iff.mp hpad']
  | cons x xs ih =>
    cases pad with
    | nil => cases hpad
    | cons p pad =>
      cases pad' with
      | nil => cases hpad'
      | cons p' pad' =>
        obtain ⟨hhead, htail⟩ := List.cons.inj h
        have hbyte : p ^^^ x = p' ^^^ x := by
          rw [UInt8.xor_comm p, UInt8.xor_comm p']
          exact hhead
        rw [(UInt8.xor_left_inj x).mp hbyte, ih (Nat.succ.inj hpad) (Nat.succ.inj hpad') htail]

theorem take_xorBytes (n : ℕ) (xs pad : Bytes) :
    (xorBytes xs pad).take n = xorBytes (xs.take n) (pad.take n) :=
  List.take_zipWith

/-! ### Accepted ciphertexts -/

section Accepted

variable [HashPrimitives]

namespace Masked

/-- The outer tag. -/
def tag (key : Bytes) (c : Masked) : Bytes :=
  (HashPrimitives.hmacSha512 (expandAeadKeys key).2 c.macInput).take tagLen

def pad (key : Bytes) (c : Masked) : Bytes :=
  padBlocks (HashPrimitives.hmacSha512 (expandAeadKeys key).1 c.padInput) 0 c.body.length

/-- The first bytes of the pad, which the commitment block is under. -/
def mask (key : Bytes) (c : Masked) : Bytes := (c.pad key).take commitBlock.length

theorem tag_eq_outerHmac (key : Bytes) (c : Masked) :
    c.tag key = outerHmac (expandAeadKeys key).2 c.aad c.body := rfl

theorem pad_eq_expandPad (key : Bytes) (c : Masked) :
    c.pad key = expandPad (expandAeadKeys key).1 c.nonce.toList c.aad c.body.length := rfl

theorem length_pad (key : Bytes) (c : Masked) : (c.pad key).length = c.body.length := by
  rw [pad_eq_expandPad, length_expandPad]

theorem length_tag (key : Bytes) (c : Masked) : (c.tag key).length = tagLen := by
  rw [tag_eq_outerHmac, length_outerHmac]

end Masked

/-- A plaintext that was sealed, with its nonce and associated data. -/
structure SealCall where
  nonce : Vector UInt8 12
  aad : Bytes
  plaintext : Bytes

namespace SealCall

/-- The ciphertext that sealing makes, without the tag. -/
def masked (key : Bytes) (e : SealCall) : Masked where
  nonce := e.nonce
  aad := e.aad
  body := xorBytes (commitBlock ++ e.plaintext) (expandPad (expandAeadKeys key).1 e.nonce.toList
    e.aad (commitBlock ++ e.plaintext).length)

def sealed (key : Bytes) (e : SealCall) : Bytes :=
  sealWithNonce key e.aad e.plaintext e.nonce.toList

theorem length_body_masked (key : Bytes) (e : SealCall) :
    (e.masked key).body.length = (commitBlock ++ e.plaintext).length :=
  length_xorBytes (length_expandPad ..)

theorem sealed_eq_wire (key : Bytes) (e : SealCall) :
    e.sealed key = (e.masked key).wire ((e.masked key).tag key) := rfl

/-- The pad takes the mask off again. -/
theorem unmask (key : Bytes) (e : SealCall) :
    xorBytes (e.masked key).body ((e.masked key).pad key) = commitBlock ++ e.plaintext := by
  rw [Masked.pad_eq_expandPad, length_body_masked]
  exact xorBytes_cancel (length_expandPad ..)

end SealCall

variable {key aad sealed plaintext : Bytes} {c : Masked}

/-- A ciphertext is of the wire form, and its tag verifies under the associated data. -/
def Verified (key aad sealed : Bytes) (c : Masked) : Prop :=
  c.aad = aad ∧ sealed = c.wire (c.tag key)

/-- Nonce, body and tag are where they are by their lengths. -/
theorem Verified.unique {d : Masked} (h : Verified key aad sealed c)
    (h' : Verified key aad sealed d) : c = d := by
  obtain ⟨hc, rfl⟩ := h
  obtain ⟨hd, hwire⟩ := h'
  rw [Masked.wire, Masked.wire] at hwire
  have hfront := (List.append_inj' hwire (by rw [c.length_tag, d.length_tag])).1
  obtain ⟨hnonce, hbody⟩ := Masked.nonce_append_inj hfront
  cases c
  cases d
  simp only [Masked.mk.injEq] at hnonce hc hd hbody ⊢
  exact ⟨hnonce, hc.trans hd.symm, hbody⟩

/-- What opens has a tag that verifies, and the commitment block under its mask. -/
theorem exists_verified_of_openSealed (h : openSealed key aad sealed = .ok plaintext) :
    ∃ c, Verified key aad sealed c ∧ xorBytes c.body (c.pad key) = commitBlock ++ plaintext := by
  rw [openSealed] at h
  split_ifs at h with hshort
  dsimp only at h
  split_ifs at h with htag hcommit
  have htag := not_not.mp htag
  have hcommit := not_not.mp hcommit
  set front := sealed.take (sealed.length - tagLen) with hfront
  have hnonce : (front.take 12).length = 12 := by
    rw [List.length_take, hfront, List.length_take]
    omega
  refine ⟨⟨⟨(front.take 12).toArray, hnonce⟩, aad, front.drop 12⟩, ⟨rfl, ?_⟩, ?_⟩
  · have hcut : sealed =
        front.take 12 ++ front.drop 12 ++ sealed.drop (sealed.length - tagLen) := by
      rw [List.take_append_drop, List.take_append_drop]
    rw [htag] at hcut
    exact hcut
  · have hplain := List.take_append_drop commitBlock.length (xorBytes (front.drop 12)
      (expandPad (expandAeadKeys key).1 (front.take 12) aad (front.drop 12).length))
    rw [hcommit, Except.ok.inj h] at hplain
    exact hplain.symm

/-- Of two masks that show the commitment block in one body, one is the other. -/
theorem mask_eq_of_unmask {d : Masked} {plaintext' : Bytes} (hbody : c.body = d.body)
    (h : xorBytes c.body (c.pad key) = commitBlock ++ plaintext)
    (h' : xorBytes d.body (d.pad key) = commitBlock ++ plaintext') : c.mask key = d.mask key := by
  have hcommit : ∀ {xs pad more : Bytes}, xorBytes xs pad = commitBlock ++ more →
      xorBytes (xs.take commitBlock.length) (pad.take commitBlock.length) = commitBlock := by
    intro xs pad more hxor
    rw [← take_xorBytes, hxor]
    exact List.take_left' rfl
  have hlength : ∀ e : Masked, (e.mask key).length = (e.body.take commitBlock.length).length := by
    intro e
    rw [Masked.mask, List.length_take, List.length_take, e.length_pad]
  refine xorBytes_left_cancel (hlength c) ?_ ((hcommit h).trans ?_)
  · rw [hbody]
    exact hlength d
  · rw [hbody]
    exact (hcommit h').symm

/-- Of the associated data and body under a tag that verifies, some seal has computed the MAC. -/
def MacIdealOn (key aad sealed : Bytes) (log : Set SealCall) : Prop :=
  ∀ c, Verified key aad sealed c → ∃ e ∈ log, c.macInput = (e.masked key).macInput

/-- The mask of a ciphertext that is tried is that of a seal only if both pads are made from the
same. -/
def PadsDifferOn (key aad sealed : Bytes) (log : Set SealCall) : Prop :=
  ∀ c, Verified key aad sealed c → ∀ e ∈ log, c.mask key = (e.masked key).mask key →
    c.padInput = (e.masked key).padInput

/-- The outer MAC's input determines associated data and body among those of one length, and with
what the pad is made from it determines the nonce as well. So with an ideal MAC and pads that
differ, a ciphertext opens under associated data of the length that was sealed only if it is what
was sealed; and under associated data of any length only if they have, with the body, the bytes
that were sealed. -/
theorem accepted_was_sealed :
    (∀ c d : Masked, c.macInput = d.macInput → c.aad.length = d.aad.length →
      c.aad = d.aad ∧ c.body = d.body) ∧
    (∀ c d : Masked, c.macInput = d.macInput → c.padInput = d.padInput → c = d) ∧
    ∀ key aad sealed plaintext log, MacIdealOn key aad sealed log →
      PadsDifferOn key aad sealed log → openSealed key aad sealed = .ok plaintext →
      ∃ c, Verified key aad sealed c ∧ ∃ e ∈ log, c.macInput = (e.masked key).macInput ∧
        (aad.length = e.aad.length →
          c = e.masked key ∧ sealed = e.sealed key ∧ aad = e.aad ∧ plaintext = e.plaintext) := by
  refine ⟨fun _ _ => Masked.eq_of_macInput_eq, fun _ _ => Masked.ext_of_inputs_eq, ?_⟩
  intro key aad sealed plaintext log hmac hpads hopen
  obtain ⟨c, hc, hunmask⟩ := exists_verified_of_openSealed hopen
  obtain ⟨e, he, hinput⟩ := hmac c hc
  refine ⟨c, hc, e, he, hinput, fun hlength => ?_⟩
  obtain ⟨rfl, rfl⟩ := hc
  -- both masks show the commitment block in one body, so they are made from the same
  have hbody := (Masked.eq_of_macInput_eq hinput hlength).2
  have hmask := mask_eq_of_unmask hbody hunmask (e.unmask key)
  obtain rfl := Masked.ext_of_inputs_eq hinput (hpads c ⟨rfl, rfl⟩ e he hmask)
  rw [e.unmask] at hunmask
  exact ⟨rfl, rfl, rfl, (List.append_cancel_left hunmask).symm⟩

end Accepted

section Sample

attribute [local instance] transparentHash

/-- Two seals of one key, under associated data of one length. -/
def firstSeal : SealCall := ⟨Vector.replicate 12 0, [1], [10, 11]⟩

def secondSeal : SealCall := ⟨Vector.replicate 12 1, [1], [10, 12]⟩

/-- The first ciphertext opens, and is then one of the two that were sealed. -/
theorem accepted_was_sealed_firstSeal :
    ∃ e ∈ ({firstSeal, secondSeal} : Set SealCall),
      firstSeal.sealed [5] = e.sealed [5] ∧ [10, 11] = e.plaintext := by
  have hfirst : Verified [5] [1] (firstSeal.sealed [5]) (firstSeal.masked [5]) :=
    ⟨rfl, firstSeal.sealed_eq_wire [5]⟩
  have hmac : MacIdealOn [5] [1] (firstSeal.sealed [5]) {firstSeal, secondSeal} := by
    intro c hc
    rw [hc.unique hfirst]
    exact ⟨firstSeal, Set.mem_insert .., rfl⟩
  have hdiffer : (firstSeal.masked [5]).mask [5] ≠ (secondSeal.masked [5]).mask [5] := by
    decide +kernel
  have hpads : PadsDifferOn [5] [1] (firstSeal.sealed [5]) {firstSeal, secondSeal} := by
    intro c hc e he hmask
    rw [hc.unique hfirst] at hmask ⊢
    rcases he with rfl | rfl
    · rfl
    · exact absurd hmask hdiffer
  have hopen : openSealed [5] [1] (firstSeal.sealed [5]) = .ok [10, 11] :=
    openSealed_sealWithNonce [5] [1] [10, 11] Vector.length_toList
  obtain ⟨c, -, e, he, hinput, hsealed⟩ :=
    accepted_was_sealed.2.2 [5] [1] _ [10, 11] _ hmac hpads hopen
  have hlength : e.aad.length = 1 := by
    rcases he with rfl | rfl
    · rfl
    · rfl
  exact ⟨e, he, (hsealed hlength.symm).2.1, (hsealed hlength.symm).2.2.2⟩

end Sample

end SafeHub.CommittingAead
