import Reddcoin.Script.Script
import Reddcoin.Serialize.Primitive
import Reddcoin.Serialize.VarInt

/-!
# The script compressor

`CScriptCompressor` of `compressor.h` and `compressor.cpp`, through which the script of an output goes into the
chainstate and the undo data.  Payments to a key hash, a script hash or a public key are written as a tag and the bytes
that matter; the parity of an uncompressed key is part of the tag.  Every other script is written after its size plus
`nSpecialScripts`, so that the first number tells the forms apart.
-/

namespace Reddcoin

open Stream List

variable {script : CScript} {key : List UInt8}

def OP_DUP : UInt8 := 0x76
def OP_EQUALVERIFY : UInt8 := 0x88

/-! ## Public keys

A `CPubKey` is its `size()` bytes, none when it is invalid. -/

namespace CPubKey

def getLen (chHeader : UInt8) : Nat :=
  if chHeader = 2 ∨ chHeader = 3 then 33
  else if chHeader = 4 ∨ chHeader = 6 ∨ chHeader = 7 then 65
  else 0

def set : List UInt8 → List UInt8
  | [] => []
  | b :: bytes => if getLen b ≠ 0 ∧ getLen b = (b :: bytes).length then b :: bytes else []

/-- The two functions that need the curve. -/
structure Curve where
  isFullyValid : List UInt8 → Bool
  /-- `Decompress`: the new bytes, or `none` where it returns false. -/
  decompress : List UInt8 → Option (List UInt8)

/-- The compressed form of an uncompressed key: the parity of its last byte and the first coordinate. -/
def compressed (key : List UInt8) : List UInt8 :=
  (0x02 ||| (key.getD 64 0 &&& 0x01)) :: (key.drop 1).take 32

/-- `Decompress` brings a fully valid uncompressed key back. -/
def Curve.Restores (K : Curve) : Prop :=
  ∀ key, key.length = 65 → key[0]? = some 0x04 → K.isFullyValid key = true → K.decompress (compressed key) = some key

end CPubKey

namespace CScriptCompressor

open CPubKey

variable (K : CPubKey.Curve)

def nSpecialScripts : Nat := 6

/-! ## The three templates -/

def isToKeyID (script : CScript) : Option (List UInt8) :=
  if script.length = 25 ∧ script[0]? = some OP_DUP ∧ script[1]? = some (UInt8.ofNat OP_HASH160) ∧
      script[2]? = some 20 ∧ script[23]? = some OP_EQUALVERIFY ∧ script[24]? = some (UInt8.ofNat OP_CHECKSIG) then
    some ((script.drop 3).take 20)
  else none

def isToScriptID (script : CScript) : Option (List UInt8) :=
  if script.length = 23 ∧ script[0]? = some (UInt8.ofNat OP_HASH160) ∧ script[1]? = some 20 ∧
      script[22]? = some (UInt8.ofNat OP_EQUAL) then
    some ((script.drop 2).take 20)
  else none

def isToPubKey (script : CScript) : Option (List UInt8) :=
  if script.length = 35 ∧ script[0]? = some 33 ∧ script[34]? = some (UInt8.ofNat OP_CHECKSIG) ∧
      (script[1]? = some 0x02 ∨ script[1]? = some 0x03) then
    some (CPubKey.set ((script.drop 1).take 33))
  else if script.length = 67 ∧ script[0]? = some 65 ∧ script[66]? = some (UInt8.ofNat OP_CHECKSIG) ∧
      script[1]? = some 0x04 then
    -- if not fully valid, a case that would not be compressible
    if K.isFullyValid (CPubKey.set ((script.drop 1).take 65)) then some (CPubKey.set ((script.drop 1).take 65))
    else none
  else none

/-! ## Writing and reading -/

def compress (script : CScript) : Option (List UInt8) :=
  match isToKeyID script with
  | some keyID => some (0x00 :: keyID)
  | none =>
    match isToScriptID script with
    | some scriptID => some (0x01 :: scriptID)
    | none =>
      match isToPubKey K script with
      | some pubkey =>
        if pubkey[0]? = some 0x02 ∨ pubkey[0]? = some 0x03 then
          some (pubkey.getD 0 0 :: (pubkey.drop 1).take 32)
        else if pubkey[0]? = some 0x04 then
          some ((0x04 ||| (pubkey.getD 64 0 &&& 0x01)) :: (pubkey.drop 1).take 32)
        else none
      | none => none

def getSpecialSize (nSize : Nat) : Nat :=
  if nSize = 0 ∨ nSize = 1 then 20
  else if nSize = 2 ∨ nSize = 3 ∨ nSize = 4 ∨ nSize = 5 then 32
  else 0

/-- What `Decompress` returns and the script it leaves; `none` where the assertion on the size of the key fails. -/
def decompress (script : CScript) (nSize : Nat) (vch : List UInt8) : Option (Bool × CScript) :=
  if nSize = 0x00 then
    some (true, [OP_DUP, UInt8.ofNat OP_HASH160, 20] ++ vch ++ [OP_EQUALVERIFY, UInt8.ofNat OP_CHECKSIG])
  else if nSize = 0x01 then
    some (true, [UInt8.ofNat OP_HASH160, 20] ++ vch ++ [UInt8.ofNat OP_EQUAL])
  else if nSize = 0x02 ∨ nSize = 0x03 then
    some (true, [33, UInt8.ofNat nSize] ++ vch ++ [UInt8.ofNat OP_CHECKSIG])
  else if nSize = 0x04 ∨ nSize = 0x05 then
    match K.decompress (CPubKey.set (UInt8.ofNat (nSize - 2) :: vch)) with
    | none => some (false, script)
    | some pubkey =>
      if pubkey.length = 65 then some (true, [65] ++ pubkey ++ [UInt8.ofNat OP_CHECKSIG]) else none
  else some (false, script)

/-- `script.size() + nSpecialScripts` in an `unsigned int`. -/
def rawSize (script : CScript) : Nat :=
  (script.length + nSpecialScripts) % 2 ^ 32

def getSerializeSize (script : CScript) : Nat :=
  match compress K script with
  | some compr => compr.length
  | none => script.length + getSizeOfVarInt (rawSize script)

def serialize (script : CScript) : List UInt8 :=
  match compress K script with
  | some compr => compr
  | none => writeVarInt (rawSize script) ++ script

/-- `Unserialize` into a compressor of `script`.  What `Decompress` returns is not looked at. -/
def unserialize (script : CScript) : Reader UInt8 CScript := do
  let nVal ← (readVarInt : Reader UInt8 Nat)
  let nSize := nVal % 2 ^ 32
  if nSize < nSpecialScripts then
    let vch ← symbols (getSpecialSize nSize)
    match decompress K script nSize vch with
    | some result => pure result.2
    | none => failure
  else symbols (nSize - nSpecialScripts)

/-! ## What the templates recognise -/

/-- A list with a known beginning and a known end. -/
theorem eq_frame {α : Type} {l : List α} (pre : List α) (n : Nat) (post : List α)
    (hlen : l.length = pre.length + n + post.length)
    (hpre : ∀ i < pre.length, l[i]? = pre[i]?)
    (hpost : ∀ i < post.length, l[pre.length + n + i]? = post[i]?) :
    l = pre ++ (l.drop pre.length).take n ++ post := by
  have hmid : ((l.drop pre.length).take n).length = n := by
    rw [length_take, length_drop]
    omega
  apply ext_getElem?
  intro i
  rw [append_assoc]
  rcases Nat.lt_or_ge i pre.length with hi | hi
  · rw [getElem?_append_left hi, hpre i hi]
  · rw [getElem?_append_right hi]
    rcases Nat.lt_or_ge i (pre.length + n) with hn | hn
    · rw [getElem?_append_left (by omega), getElem?_take_of_lt (by omega), getElem?_drop]
      congr 1
      omega
    · rw [getElem?_append_right (by omega), hmid]
      rcases Nat.lt_or_ge i l.length with hlt | hge
      · rw [← hpost (i - pre.length - n) (by omega)]
        congr 1
        omega
      · rw [getElem?_eq_none hge, getElem?_eq_none (by omega)]

theorem isToKeyID_eq_some {hash : List UInt8} (h : isToKeyID script = some hash) : hash.length = 20 ∧ script =
      [OP_DUP, UInt8.ofNat OP_HASH160, 20] ++ hash ++ [OP_EQUALVERIFY, UInt8.ofNat OP_CHECKSIG] := by
  rw [isToKeyID, Option.ite_none_right_eq_some] at h
  obtain ⟨⟨hlen, h0, h1, h2, h23, h24⟩, hhash⟩ := h
  cases hhash
  refine ⟨by rw [length_take, length_drop]; omega, ?_⟩
  refine eq_frame [_, _, _] 20 [_, _] hlen ?_ ?_
  · intro i hi
    rcases i with _ | _ | _ | i
    · exact h0
    · exact h1
    · exact h2
    · simp only [length_cons, length_nil] at hi
      omega
  · intro i hi
    rcases i with _ | _ | i
    · exact h23
    · exact h24
    · simp only [length_cons, length_nil] at hi
      omega

theorem isToScriptID_eq_some {hash : List UInt8} (h : isToScriptID script = some hash) :
    hash.length = 20 ∧ script = [UInt8.ofNat OP_HASH160, 20] ++ hash ++ [UInt8.ofNat OP_EQUAL] := by
  rw [isToScriptID, Option.ite_none_right_eq_some] at h
  obtain ⟨⟨hlen, h0, h1, h22⟩, hhash⟩ := h
  cases hhash
  refine ⟨by rw [length_take, length_drop]; omega, ?_⟩
  refine eq_frame [_, _] 20 [_] hlen ?_ ?_
  · intro i hi
    rcases i with _ | _ | i
    · exact h0
    · exact h1
    · simp only [length_cons, length_nil] at hi
      omega
  · intro i hi
    rcases i with _ | i
    · exact h22
    · simp at hi

/-- A push of `n` bytes and `OP_CHECKSIG`. -/
theorem eq_pushChecksig {n : Nat} (hlen : script.length = n + 2)
    (h0 : script[0]? = some (UInt8.ofNat n)) (hlast : script[n + 1]? = some (UInt8.ofNat OP_CHECKSIG)) :
    ((script.drop 1).take n).length = n ∧
    script = [UInt8.ofNat n] ++ (script.drop 1).take n ++ [UInt8.ofNat OP_CHECKSIG] := by
  refine ⟨by rw [length_take, length_drop]; omega, ?_⟩
  refine eq_frame [_] n [_] (by simp; omega) ?_ ?_
  · intro i hi
    rcases i with _ | i
    · exact h0
    · simp at hi
  · intro i hi
    rcases i with _ | i
    · have hindex : [UInt8.ofNat n].length + n + 0 = n + 1 := by
        rw [length_singleton]
        omega
      rw [hindex, hlast]
      rfl
    · simp at hi

/-- The bytes of a key that `Set` accepts are the key. -/
theorem set_eq_self {bytes : List UInt8} {b : UInt8} (h0 : bytes[0]? = some b) (hlen : getLen b = bytes.length) :
    CPubKey.set bytes = bytes := by
  cases bytes with
  | nil => simp at h0
  | cons c bytes =>
    obtain rfl : c = b := by simpa using h0
    exact if_pos ⟨by rw [hlen]; simp, hlen⟩

theorem isToPubKey_eq_some (h : isToPubKey K script = some key) :
    script = [UInt8.ofNat key.length] ++ key ++ [UInt8.ofNat OP_CHECKSIG] ∧
    (key.length = 33 ∧ (key[0]? = some 0x02 ∨ key[0]? = some 0x03) ∨
      key.length = 65 ∧ key[0]? = some 0x04 ∧ K.isFullyValid key) := by
  unfold isToPubKey at h
  split_ifs at h with hshort hlong hvalid
  · obtain ⟨hlen, h0, h34, h1⟩ := hshort
    obtain ⟨hkey, hscript⟩ := eq_pushChecksig (n := 33) hlen h0 h34
    have hhead : ((script.drop 1).take 33)[0]? = script[1]? := by
      rw [getElem?_take_of_lt (by omega), getElem?_drop]
    have hset : CPubKey.set ((script.drop 1).take 33) = (script.drop 1).take 33 := by
      rcases h1 with h1 | h1
      · exact set_eq_self (hhead.trans h1) hkey.symm
      · exact set_eq_self (hhead.trans h1) hkey.symm
    rw [hset] at h
    cases h
    rw [hkey, hhead]
    exact ⟨hscript, .inl ⟨rfl, h1⟩⟩
  · obtain ⟨hlen, h0, h66, h1⟩ := hlong
    obtain ⟨hkey, hscript⟩ := eq_pushChecksig (n := 65) hlen h0 h66
    have hhead : ((script.drop 1).take 65)[0]? = script[1]? := by
      rw [getElem?_take_of_lt (by omega), getElem?_drop]
    rw [set_eq_self (hhead.trans h1) hkey.symm] at h hvalid
    cases h
    rw [hkey, hhead]
    exact ⟨hscript, .inr ⟨rfl, h1, hvalid⟩⟩

/-! ## Special forms -/

theorem and_one_cases (b : UInt8) : b &&& 0x01 = 0 ∨ b &&& 0x01 = 1 := by
  have hmod : (b &&& 0x01).toNat = b.toNat % 2 := by
    rw [UInt8.toNat_and]
    exact Nat.and_one_is_mod b.toNat
  rcases Nat.mod_two_eq_zero_or_one b.toNat with h | h
  · exact .inl (UInt8.toNat_inj.mp (hmod.trans h))
  · exact .inr (UInt8.toNat_inj.mp (hmod.trans h))

/-- A tag and its payload, from which `Decompress` rebuilds the script. -/
structure SpecialForm (script : CScript) (nSize : Nat) (vch : List UInt8) : Prop where
  tag : nSize < nSpecialScripts
  size : vch.length = getSpecialSize nSize
  rebuilt : K.Restores → ∀ old, decompress K old nSize vch = some (true, script)

section

variable {script : CScript}

theorem specialForm_keyID {keyID : List UInt8} (h : isToKeyID script = some keyID) : SpecialForm K script 0 keyID := by
  obtain ⟨hlen, hscript⟩ := isToKeyID_eq_some h
  refine ⟨by decide, hlen, fun _ old => ?_⟩
  rw [hscript]
  rfl

theorem specialForm_scriptID {scriptID : List UInt8} (h : isToScriptID script = some scriptID) :
    SpecialForm K script 1 scriptID := by
  obtain ⟨hlen, hscript⟩ := isToScriptID_eq_some h
  refine ⟨by decide, hlen, fun _ old => ?_⟩
  rw [hscript]
  rfl

/-- A compressed key, whose first byte is the tag. -/
theorem specialForm_compressedKey {nSize : Nat}
    (hsize : nSize = 0x02 ∨ nSize = 0x03) (hlen : key.length = 33) (h0 : key[0]? = some (UInt8.ofNat nSize))
    (hscript : script = [33] ++ key ++ [UInt8.ofNat OP_CHECKSIG]) :
    SpecialForm K script nSize ((key.drop 1).take 32) := by
  have htake : (key.drop 1).take 32 = key.drop 1 := by
    rw [take_of_length_le]
    rw [length_drop]
    omega
  have hkey : key = UInt8.ofNat nSize :: key.drop 1 := by
    cases key with
    | nil => simp at h0
    | cons b key =>
      cases h0
      rfl
  rw [htake]
  refine ⟨by rcases hsize with rfl | rfl <;> decide, ?_, fun _ old => ?_⟩
  · rw [length_drop, hlen]
    rcases hsize with rfl | rfl <;> rfl
  · rw [decompress, if_neg (by omega), if_neg (by omega), if_pos hsize, hscript]
    conv_rhs => rw [hkey]
    rfl

/-- An uncompressed key, whose parity the tag carries. -/
theorem specialForm_uncompressedKey {nSize : Nat}
    (hsize : nSize = 0x04 ∨ nSize = 0x05) (hlen : key.length = 65) (h0 : key[0]? = some 0x04)
    (hvalid : K.isFullyValid key)
    (htag : UInt8.ofNat (nSize - 2) = 0x02 ||| (key.getD 64 0 &&& 0x01))
    (hscript : script = [65] ++ key ++ [UInt8.ofNat OP_CHECKSIG]) :
    SpecialForm K script nSize ((key.drop 1).take 32) := by
  have hpayload : ((key.drop 1).take 32).length = 32 := by
    rw [length_take, length_drop]
    omega
  refine ⟨by rcases hsize with rfl | rfl <;> decide, ?_, fun hK old => ?_⟩
  · rw [hpayload]
    rcases hsize with rfl | rfl <;> rfl
  · have hset : CPubKey.set (UInt8.ofNat (nSize - 2) :: (key.drop 1).take 32) = compressed key := by
      rw [set_eq_self (b := UInt8.ofNat (nSize - 2)) rfl, htag]
      · rfl
      · rw [length_cons, hpayload]
        rcases hsize with rfl | rfl <;> rfl
    rw [decompress, if_neg (by omega), if_neg (by omega), if_neg (by omega), if_pos hsize, hset, hK key hlen h0 hvalid,
      hscript]
    exact if_pos hlen

theorem compress_special {out : List UInt8} (h : compress K script = some out) :
    ∃ nSize vch, out = UInt8.ofNat nSize :: vch ∧ SpecialForm K script nSize vch := by
  unfold compress at h
  cases hkeyID : isToKeyID script with
  | some keyID =>
    rw [hkeyID] at h
    exact ⟨0, keyID, (Option.some.inj h).symm, specialForm_keyID K hkeyID⟩
  | none =>
  rw [hkeyID] at h
  cases hscriptID : isToScriptID script with
  | some scriptID =>
    rw [hscriptID] at h
    exact ⟨1, scriptID, (Option.some.inj h).symm, specialForm_scriptID K hscriptID⟩
  | none =>
  rw [hscriptID] at h
  cases hpubkey : isToPubKey K script with
  | none =>
    rw [hpubkey] at h
    simp at h
  | some key =>
  rw [hpubkey] at h
  dsimp only at h
  obtain ⟨hscript, ⟨hlen, h0⟩ | ⟨hlen, h0, hvalid⟩⟩ := isToPubKey_eq_some K hpubkey
  · rw [hlen] at hscript
    rw [if_pos h0] at h
    rcases h0 with h0 | h0
    · refine ⟨2, _, ?_, specialForm_compressedKey K (.inl rfl) hlen h0 hscript⟩
      cases h
      rw [getD_eq_getElem?_getD, h0]
      rfl
    · refine ⟨3, _, ?_, specialForm_compressedKey K (.inr rfl) hlen h0 hscript⟩
      cases h
      rw [getD_eq_getElem?_getD, h0]
      rfl
  · rw [hlen] at hscript
    rw [if_neg (by rw [h0]; decide), if_pos h0] at h
    rcases and_one_cases (key.getD 64 0) with hparity | hparity
    · refine ⟨4, _, ?_, specialForm_uncompressedKey K (.inl rfl) hlen h0 hvalid (by rw [hparity]; rfl) hscript⟩
      cases h
      rw [hparity]
      rfl
    · refine ⟨5, _, ?_, specialForm_uncompressedKey K (.inr rfl) hlen h0 hvalid (by rw [hparity]; rfl) hscript⟩
      cases h
      rw [hparity]
      rfl

end

/-! ## Round trip -/

theorem length_serialize (script : CScript) : (serialize K script).length = getSerializeSize K script := by
  unfold serialize getSerializeSize
  cases compress K script with
  | some compr => rfl
  | none =>
    dsimp only
    rw [length_append, length_writeVarInt, Nat.add_comm]

theorem serialize_special {out : List UInt8} (h : compress K script = some out) : ∃ (nSize : Nat) (vch : List UInt8),
      serialize K script = writeVarInt nSize ++ vch ∧ SpecialForm K script nSize vch := by
  obtain ⟨nSize, vch, hout, hform⟩ := compress_special K h
  have htag : nSize < 6 := hform.tag
  have hvar : writeVarInt nSize = [UInt8.ofNat nSize] := writeVarInt_small (by omega)
  refine ⟨nSize, vch, ?_, hform⟩
  rw [serialize, h, hvar]
  exact hout

theorem serialize_raw (h : compress K script = none) (hsize : script.length + nSpecialScripts < 2 ^ 32) :
    serialize K script = writeVarInt ((script.length + nSpecialScripts : Nat) : Int) ++ script := by
  rw [serialize, h, rawSize, Nat.mod_eq_of_lt hsize]

theorem reads_readVarInt (n : Nat) : Reads (readVarInt : Reader UInt8 Nat) (writeVarInt n) n :=
  readVarInt_writeVarInt n

theorem reads_unserialize (hK : K.Restores) (hsize : script.length + nSpecialScripts < 2 ^ 32) (old : CScript) :
    Reads (unserialize K old) (serialize K script) script := by
  cases hc : compress K script with
  | some out =>
    obtain ⟨nSize, vch, hbytes, hform⟩ := serialize_special K hc
    have htag : nSize < 6 := hform.tag
    rw [hbytes]
    refine reads_bind (reads_readVarInt nSize) ?_
    dsimp only
    rw [Nat.mod_eq_of_lt (by omega), if_pos hform.tag]
    have hvch := reads_symbols vch
    rw [hform.size] at hvch
    refine reads_last hvch ?_
    rw [hform.rebuilt hK old]
    exact reads_pure script
  | none =>
    rw [serialize_raw K hc hsize]
    refine reads_bind (reads_readVarInt _) ?_
    dsimp only
    rw [Nat.mod_eq_of_lt hsize, if_neg (by omega), Nat.add_sub_cancel]
    exact reads_symbols script

theorem extends_readVarInt : Extends (readVarInt : Reader UInt8 Nat) := by
  have hloop : ∀ (s t : List UInt8) (n a : Nat) (rest : List UInt8), readVarIntLoop n s = some (a, rest) →
      readVarIntLoop n (s ++ t) = some (a, rest ++ t) := by
    intro s
    induction s with
    | nil =>
      intro t n a rest h
      simp [readVarIntLoop] at h
    | cons b s ih =>
      intro t n a rest h
      rw [readVarIntLoop] at h
      rw [cons_append, readVarIntLoop]
      split_ifs at h ⊢ with hmore
      · exact ih t _ a rest h
      · cases h
        rfl
  intro s t a rest h
  exact hloop s t 0 a rest h

theorem extends_unserialize (old : CScript) : Extends (unserialize K old) := by
  refine extends_bind extends_readVarInt fun nVal => ?_
  dsimp only
  split_ifs with htag
  · refine extends_bind (extends_symbols _) fun vch => ?_
    cases decompress K old (nVal % 2 ^ 32) vch with
    | none => exact extends_failure
    | some result => exact extends_pure result.2
  · exact extends_symbols _

/-- The first number of what is written is a tag exactly when the script has a special form. -/
theorem readVarInt_serialize (hsize : script.length + nSpecialScripts < 2 ^ 32) (rest : List UInt8) :
    ∃ (nSize : Nat) (bytes : List UInt8), readVarInt (serialize K script ++ rest) = some (nSize, bytes) ∧
      nSize < 2 ^ 32 ∧ (nSize < nSpecialScripts ↔ (compress K script).isSome) := by
  cases hc : compress K script with
  | some out =>
    obtain ⟨nSize, vch, hbytes, hform⟩ := serialize_special K hc
    have htag : nSize < 6 := hform.tag
    refine ⟨nSize, vch ++ rest, ?_, by omega, fun _ => rfl, fun _ => hform.tag⟩
    rw [hbytes, append_assoc]
    exact reads_readVarInt nSize _
  | none =>
    refine ⟨script.length + nSpecialScripts, script ++ rest, ?_, hsize, ?_⟩
    · rw [serialize_raw K hc hsize, append_assoc, readVarInt_writeVarInt]
    · rw [Option.isSome_none]
      constructor
      · intro hlt
        omega
      · intro h
        cases h

end CScriptCompressor

open CScriptCompressor in
/-- A script whose size and `nSpecialScripts` fit an `unsigned int`, which is more than the 32 MiB any reader allows,
comes back from its compressed form, and the first number read tells a special form from a raw script. -/
theorem script_comes_back {K : CPubKey.Curve} (hK : K.Restores) {script : CScript}
    (hsize : script.length + nSpecialScripts < 2 ^ 32) (rest : List UInt8) :
    (∀ old, (unserialize K old).run (serialize K script ++ rest) = some (script, rest)) ∧
    ∃ (nSize : Nat) (bytes : List UInt8), readVarInt (serialize K script ++ rest) = some (nSize, bytes) ∧
      nSize < 2 ^ 32 ∧ (nSize < nSpecialScripts ↔ (compress K script).isSome = true) := by
  constructor
  · intro old
    exact reads_unserialize K hK hsize old rest
  · exact readVarInt_serialize K hsize rest

/-- The generator of the curve, uncompressed. -/
def generatorKey : List UInt8 :=
  [0x04, 0x79, 0xbe, 0x66, 0x7e, 0xf9, 0xdc, 0xbb, 0xac, 0x55, 0xa0, 0x62, 0x95, 0xce, 0x87, 0x0b, 0x07,
    0x02, 0x9b, 0xfc, 0xdb, 0x2d, 0xce, 0x28, 0xd9, 0x59, 0xf2, 0x81, 0x5b, 0x16, 0xf8, 0x17, 0x98,
    0x48, 0x3a, 0xda, 0x77, 0x26, 0xa3, 0xc4, 0x65, 0x5d, 0xa4, 0xfb, 0xfc, 0x0e, 0x11, 0x08, 0xa8,
    0xfd, 0x17, 0xb4, 0x48, 0xa6, 0x85, 0x54, 0x19, 0x9c, 0x47, 0xd0, 0x8f, 0xfb, 0x10, 0xd4, 0xb8]

/-- The curve as far as its generator goes. -/
def generatorCurve : CPubKey.Curve where
  isFullyValid key := decide (key = generatorKey)
  decompress key := if key = CPubKey.compressed generatorKey then some generatorKey else none

theorem generatorCurve_restores : generatorCurve.Restores := by
  intro key _ _ hvalid
  obtain rfl : key = generatorKey := of_decide_eq_true hvalid
  show (if CPubKey.compressed generatorKey = CPubKey.compressed generatorKey then some generatorKey else none) = _
  rw [if_pos rfl]

/-- A payment to the generator, which is stored as the tag 4 and the first coordinate. -/
def generatorScript : CScript :=
  65 :: generatorKey ++ [UInt8.ofNat OP_CHECKSIG]

theorem script_comes_back_generator :
    (∀ old, (CScriptCompressor.unserialize generatorCurve old).run
      (CScriptCompressor.serialize generatorCurve generatorScript ++ []) = some (generatorScript, [])) ∧
    ∃ (nSize : Nat) (bytes : List UInt8),
      readVarInt (CScriptCompressor.serialize generatorCurve generatorScript ++ []) = some (nSize, bytes) ∧
      nSize < 2 ^ 32 ∧ (nSize < CScriptCompressor.nSpecialScripts ↔
        (CScriptCompressor.compress generatorCurve generatorScript).isSome = true) :=
  script_comes_back generatorCurve_restores (by decide) []

end Reddcoin
