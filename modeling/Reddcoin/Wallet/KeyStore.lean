import Mathlib.Data.List.AList

/-!
# The encrypted key store

`CCryptoKeyStore` of `crypter.cpp` over `CBasicKeyStore`. The keys are taken over once by `EncryptKeys`; from there on
each is kept encrypted under one master key, whatever is tried to unlock the store.
-/

namespace Reddcoin
namespace KeyStore

/-- The elliptic curve, the two hashes of a public key and the cipher, which works with 32 bytes of key and a hash
as its IV. -/
structure KeyCrypto (KeyID : Type) where
  check : List UInt8 → Bool
  pubKey : List UInt8 → Bool → List UInt8
  getID : List UInt8 → KeyID
  getHash : List UInt8 → Nat
  encrypt : List UInt8 → Nat → List UInt8 → Option (List UInt8)
  decrypt : List UInt8 → Nat → List UInt8 → Option (List UInt8)

variable {KeyID : Type} {E : KeyCrypto KeyID}

/-- A `CKey` with `fValid`. -/
structure CKey (E : KeyCrypto KeyID) where
  vch : List UInt8
  fCompressed : Bool
  valid : vch.length = 32 ∧ E.check vch = true

/-- `CKey::Set`; none leaves the key invalid. -/
def CKey.set (E : KeyCrypto KeyID) (vch : List UInt8) (fCompressed : Bool) : Option (CKey E) :=
  if h : vch.length = 32 ∧ E.check vch = true then some ⟨vch, fCompressed, h⟩ else none

def CKey.getPubKey (key : CKey E) : List UInt8 := E.pubKey key.vch key.fCompressed

/-- `CPubKey::IsCompressed`. -/
def isCompressed (vchPubKey : List UInt8) : Bool := vchPubKey.length == 33

/-- `CCrypter::SetKey` and `Encrypt`; `decryptSecret` likewise. -/
def encryptSecret (E : KeyCrypto KeyID) (vMasterKey vchPlaintext : List UInt8) (nIV : Nat) : Option (List UInt8) :=
  if vMasterKey.length = 32 then E.encrypt vMasterKey nIV vchPlaintext else none

def decryptSecret (E : KeyCrypto KeyID) (vMasterKey vchCiphertext : List UInt8) (nIV : Nat) : Option (List UInt8) :=
  if vMasterKey.length = 32 then E.decrypt vMasterKey nIV vchCiphertext else none

/-- The program stops: at "The wallet is probably corrupted", or at `assert(fValid)` of `GetPubKey`. -/
inductive Assertion where
  | corrupted
  | invalidKey

/-- The checks of `Unlock` on one encrypted key. -/
def passes (E : KeyCrypto KeyID) (vMasterKeyIn : List UInt8) (crypted : List UInt8 × List UInt8) : Except Assertion Bool :=
  match decryptSecret E vMasterKeyIn crypted.2 (E.getHash crypted.1) with
  | none => .ok false
  | some vchSecret =>
    if vchSecret.length ≠ 32 then .ok false
    else match CKey.set E vchSecret (isCompressed crypted.1) with
      | none => .error .invalidKey
      | some key => .ok (key.getPubKey == crypted.1)

/-- The loop of `Unlock`, with `keyPass` so far; it returns `keyPass` and `keyFail`. -/
def unlockLoop (E : KeyCrypto KeyID) (vMasterKeyIn : List UInt8) (fDecryptionThoroughlyChecked : Bool) :
    List (Sigma fun _ : KeyID => List UInt8 × List UInt8) → Bool → Except Assertion (Bool × Bool)
  | [], keyPass => .ok (keyPass, false)
  | mi :: rest, keyPass => do
    if ← passes E vMasterKeyIn mi.2 then
      if fDecryptionThoroughlyChecked then return (true, false)
      else unlockLoop E vMasterKeyIn fDecryptionThoroughlyChecked rest true
    else return (keyPass, true)

/-! ## The secrets -/

/-- What is relied on: the lengths of public keys, that decryption inverts encryption, and that what another master key
makes of a secret is not a secret of the same public key. -/
structure Lawful (E : KeyCrypto KeyID) (m : List UInt8) : Prop where
  compressed : ∀ key : CKey E, isCompressed key.getPubKey = key.fCompressed
  inverse : ∀ k nIV plain ct, E.encrypt k nIV plain = some ct → E.decrypt k nIV ct = some plain
  other : ∀ c ≠ m, ∀ (key key' : CKey E) (ct : List UInt8),
    encryptSecret E m key.vch (E.getHash key.getPubKey) = some ct →
      decryptSecret E c ct (E.getHash key.getPubKey) = some key'.vch → key'.getPubKey ≠ key.getPubKey

variable {m ct : List UInt8} {key : CKey E} {l : List (Sigma fun _ : KeyID => List UInt8 × List UInt8)}

theorem decryptSecret_of_encryptSecret (hE : Lawful E m)
    (h : encryptSecret E m key.vch (E.getHash key.getPubKey) = some ct) :
    decryptSecret E m ct (E.getHash key.getPubKey) = some key.vch := by
  unfold encryptSecret at h
  unfold decryptSecret
  split_ifs at h ⊢
  exact hE.inverse _ _ _ _ h

theorem set_self (hE : Lawful E m) (key : CKey E) :
    CKey.set E key.vch (isCompressed key.getPubKey) = some key := by
  rw [hE.compressed, CKey.set, dif_pos key.valid]

theorem passes_master (hE : Lawful E m) (h : encryptSecret E m key.vch (E.getHash key.getPubKey) = some ct) :
    passes E m (key.getPubKey, ct) = .ok true := by
  simp [passes, decryptSecret_of_encryptSecret hE h, key.valid.1, set_self hE]

theorem passes_other (hE : Lawful E m) (h : encryptSecret E m key.vch (E.getHash key.getPubKey) = some ct)
    {c : List UInt8} (hc : c ≠ m) :
    passes E c (key.getPubKey, ct) = .ok false ∨ passes E c (key.getPubKey, ct) = .error .invalidKey := by
  unfold passes
  cases hsecret : decryptSecret E c ct (E.getHash key.getPubKey) with
  | none => exact .inl rfl
  | some vchSecret =>
    by_cases hset : vchSecret.length = 32 ∧ E.check vchSecret = true
    · have hne := hE.other c hc key ⟨vchSecret, isCompressed key.getPubKey, hset⟩ ct h hsecret
      left
      simp [CKey.set, hset, hne]
    · by_cases hsize : vchSecret.length = 32
      · right
        simp [CKey.set, hsize, show ¬ E.check vchSecret = true from fun hcheck => hset ⟨hsize, hcheck⟩]
      · left
        simp [hsize]

theorem unlockLoop_pass {c : List UInt8} {thorough : Bool} (h : ∀ mi ∈ l, passes E c mi.2 = .ok true) (keyPass : Bool) :
    unlockLoop E c thorough l keyPass = .ok (keyPass || !l.isEmpty, false) := by
  induction l generalizing keyPass with
  | nil => simp [unlockLoop]
  | cons mi l ih =>
    obtain ⟨hmi, hl⟩ := List.forall_mem_cons.mp h
    cases thorough <;> simp [unlockLoop, hmi, ih hl, bind, Except.bind, pure, Except.pure]

/-! ## The store -/

variable [DecidableEq KeyID]

/-- The entries of a map stand in an order of their own; nothing below depends on it. -/
structure CCryptoKeyStore (E : KeyCrypto KeyID) where
  mapKeys : AList fun _ : KeyID => CKey E
  mapCryptedKeys : AList fun _ : KeyID => List UInt8 × List UInt8
  vMasterKey : List UInt8
  fUseCrypto : Bool
  fDecryptionThoroughlyChecked : Bool

namespace CCryptoKeyStore

def new (E : KeyCrypto KeyID) : CCryptoKeyStore E := ⟨∅, ∅, [], false, false⟩

def isLocked (s : CCryptoKeyStore E) : Bool := s.fUseCrypto && s.vMasterKey.isEmpty

def setCrypted (s : CCryptoKeyStore E) : Bool × CCryptoKeyStore E :=
  if s.fUseCrypto then (true, s)
  else if ¬ s.mapKeys.entries.isEmpty then (false, s)
  else (true, { s with fUseCrypto := true })

def lock (s : CCryptoKeyStore E) : Bool × CCryptoKeyStore E :=
  match s.setCrypted with
  | (false, s) => (false, s)
  | (true, s) => (true, { s with vMasterKey := [] })

def unlock (vMasterKeyIn : List UInt8) (s : CCryptoKeyStore E) : Except Assertion (Bool × CCryptoKeyStore E) :=
  match s.setCrypted with
  | (false, s) => .ok (false, s)
  | (true, s) => do
    let (keyPass, keyFail) ←
      unlockLoop E vMasterKeyIn s.fDecryptionThoroughlyChecked s.mapCryptedKeys.entries false
    if keyPass && keyFail then .error .corrupted
    else if keyFail || !keyPass then .ok (false, s)
    else .ok (true, { s with vMasterKey := vMasterKeyIn, fDecryptionThoroughlyChecked := true })

def addCryptedKey (vchPubKey vchCryptedSecret : List UInt8) (s : CCryptoKeyStore E) : Bool × CCryptoKeyStore E :=
  match s.setCrypted with
  | (false, s) => (false, s)
  | (true, s) =>
    (true, { s with mapCryptedKeys := s.mapCryptedKeys.insert (E.getID vchPubKey) (vchPubKey, vchCryptedSecret) })

def addKeyPubKey (key : CKey E) (pubkey : List UInt8) (s : CCryptoKeyStore E) : Bool × CCryptoKeyStore E :=
  if ¬ s.fUseCrypto then (true, { s with mapKeys := s.mapKeys.insert (E.getID pubkey) key })
  else if s.isLocked then (false, s)
  else match encryptSecret E s.vMasterKey key.vch (E.getHash pubkey) with
    | none => (false, s)
    | some vchCryptedSecret => s.addCryptedKey pubkey vchCryptedSecret

/-- The loop of `EncryptKeys`. -/
def encryptLoop (vMasterKeyIn : List UInt8) :
    List (Sigma fun _ : KeyID => CKey E) → CCryptoKeyStore E → Bool × CCryptoKeyStore E
  | [], s => (true, s)
  | mKey :: rest, s =>
    let vchPubKey := mKey.2.getPubKey
    match encryptSecret E vMasterKeyIn mKey.2.vch (E.getHash vchPubKey) with
    | none => (false, s)
    | some vchCryptedSecret =>
      match s.addCryptedKey vchPubKey vchCryptedSecret with
      | (false, s) => (false, s)
      | (true, s) => encryptLoop vMasterKeyIn rest s

def encryptKeys (vMasterKeyIn : List UInt8) (s : CCryptoKeyStore E) : Bool × CCryptoKeyStore E :=
  if ¬ s.mapCryptedKeys.entries.isEmpty ∨ s.fUseCrypto then (false, s)
  else match encryptLoop vMasterKeyIn s.mapKeys.entries { s with fUseCrypto := true } with
    | (false, s) => (false, s)
    | (true, s) => (true, { s with mapKeys := ∅ })

/-- `keyOut` is none where `Set` leaves it invalid. -/
def getKey (address : KeyID) (s : CCryptoKeyStore E) : Option (Option (CKey E)) :=
  if ¬ s.fUseCrypto then (s.mapKeys.lookup address).map some
  else do
    let (vchPubKey, vchCryptedSecret) ← s.mapCryptedKeys.lookup address
    let vchSecret ← decryptSecret E s.vMasterKey vchCryptedSecret (E.getHash vchPubKey)
    if vchSecret.length ≠ 32 then none
    return CKey.set E vchSecret (isCompressed vchPubKey)

/-! ## Runs -/

/-- Calls on a new store, `EncryptKeys` with `m` among them once `encrypted` is set; `stored` has the key that was last
taken in under each address. A key comes with its own public key. -/
inductive Run (m : List UInt8) : Bool → (KeyID → Option (CKey E)) → CCryptoKeyStore E → Prop where
  | start : Run m false (fun _ => none) (new E)
  | addKeyPubKey {encrypted ok stored s s'} (key : CKey E) (before : Run m encrypted stored s)
      (call : s.addKeyPubKey key key.getPubKey = (ok, s')) :
      Run m encrypted (if ok then Function.update stored (E.getID key.getPubKey) (some key) else stored) s'
  | lock {encrypted stored s} (before : Run m encrypted stored s) : Run m encrypted stored s.lock.2
  | unlock {encrypted ok stored s s'} (candidate : List UInt8) (before : Run m encrypted stored s)
      (call : s.unlock candidate = .ok (ok, s')) : Run m encrypted stored s'
  | encryptKeys {stored s s'} (before : Run m false stored s) (call : s.encryptKeys m = (true, s')) : Run m true stored s'

/-- What the store has under an address, encrypted under `m`. -/
def Held (m : List UInt8) (key : CKey E) (crypted : Option (List UInt8 × List UInt8)) : Prop :=
  ∃ ct, crypted = some (key.getPubKey, ct) ∧ encryptSecret E m key.vch (E.getHash key.getPubKey) = some ct

variable {stored : KeyID → Option (CKey E)} {s s' : CCryptoKeyStore E}

/-- Before `EncryptKeys`. -/
structure Plain (stored : KeyID → Option (CKey E)) (s : CCryptoKeyStore E) : Prop where
  crypted : s.mapCryptedKeys = ∅
  master : s.vMasterKey = []
  keys : s.fUseCrypto = false → ∀ id, s.mapKeys.lookup id = stored id
  ids : ∀ id key, stored id = some key → id = E.getID key.getPubKey

/-- After `EncryptKeys`. -/
structure Sealed (m : List UInt8) (stored : KeyID → Option (CKey E)) (s : CCryptoKeyStore E) : Prop where
  crypto : s.fUseCrypto = true
  master : s.vMasterKey = [] ∨ s.vMasterKey = m
  held : ∀ id, (stored id).elim (s.mapCryptedKeys.lookup id = none) fun key => Held m key (s.mapCryptedKeys.lookup id)

/-- The three ends of `Unlock` on encrypted keys; only the right master key, and a key to try it on, open the store. -/
theorem Sealed.unlock_cases (hE : Lawful E m) (h : Sealed m stored s) (c : List UInt8) :
    (c = m ∧ (∃ id, stored id ≠ none)) ∧
        s.unlock c = .ok (true, { s with vMasterKey := m, fDecryptionThoroughlyChecked := true }) ∨
      ¬ (c = m ∧ ∃ id, stored id ≠ none) ∧ (s.unlock c = .ok (false, s) ∨ s.unlock c = .error .invalidKey) := by
  have hset : s.setCrypted = (true, s) := by rw [setCrypted, h.crypto, if_pos rfl]
  have hheld : ∀ mi ∈ s.mapCryptedKeys.entries, ∃ key, stored mi.1 = some key ∧ Held m key (some mi.2) := by
    intro mi hmi
    have hid := h.held mi.1
    rw [Option.mem_def.mp (AList.mem_lookup_iff.mpr hmi)] at hid
    cases hkey : stored mi.1 with
    | none => simp [hkey] at hid
    | some key => exact ⟨key, rfl, by simpa [hkey] using hid⟩
  have hunlock : ∀ {r}, unlockLoop E c s.fDecryptionThoroughlyChecked s.mapCryptedKeys.entries false = r →
      s.unlock c = r >>= fun p => if p.1 && p.2 then .error .corrupted else if p.2 || !p.1 then .ok (false, s)
        else .ok (true, { s with vMasterKey := c, fDecryptionThoroughlyChecked := true }) := by
    rintro r rfl
    rw [unlock, hset]
  cases hentries : s.mapCryptedKeys.entries with
  | nil =>
    right
    refine ⟨?_, .inl (hunlock (by rw [hentries, unlockLoop]))⟩
    rintro ⟨-, id, hid⟩
    obtain ⟨key, hkey⟩ := Option.ne_none_iff_exists'.mp hid
    obtain ⟨ct, hlook, -⟩ : Held m key _ := by simpa [hkey] using h.held id
    simpa [hentries] using AList.mem_lookup_iff.mp hlook
  | cons mi rest =>
    obtain ⟨key, hkey, ct, hct, henc⟩ := hheld mi (by simp [hentries])
    by_cases hc : c = m
    · subst hc
      left
      have hpass : ∀ mi ∈ s.mapCryptedKeys.entries, passes E c mi.2 = .ok true := by
        intro mi hmi
        obtain ⟨key, -, ct, hct, henc⟩ := hheld mi hmi
        rw [Option.some.inj hct]
        exact passes_master hE henc
      exact ⟨⟨rfl, mi.1, by simp [hkey]⟩, hunlock (by rw [unlockLoop_pass hpass, hentries, List.isEmpty_cons])⟩
    · right
      have hfirst := passes_other hE henc hc
      rw [← Option.some.inj hct] at hfirst
      exact ⟨fun hboth => hc hboth.1, hfirst.imp
        (fun hfail => hunlock (by rw [hentries, unlockLoop, hfail]))
        fun hstop => hunlock (by rw [hentries, unlockLoop, hstop])⟩

theorem Sealed.addKeyPubKey {ok : Bool} (h : Sealed m stored s) (key : CKey E)
    (call : s.addKeyPubKey key key.getPubKey = (ok, s')) :
    Sealed m (if ok then Function.update stored (E.getID key.getPubKey) (some key) else stored) s' := by
  simp only [CCryptoKeyStore.addKeyPubKey, h.crypto, not_true_eq_false, if_false] at call
  split_ifs at call with hlocked
  · cases call
    exact h
  have hm : s.vMasterKey = m := h.master.resolve_left fun hnil => hlocked (by simp [isLocked, h.crypto, hnil])
  rw [hm] at call
  cases henc : encryptSecret E m key.vch (E.getHash key.getPubKey) with
  | none =>
    rw [henc] at call
    cases call
    exact h
  | some ct =>
    simp only [henc, addCryptedKey, setCrypted, h.crypto, if_true] at call
    cases call
    refine ⟨rfl, h.master, fun id => ?_⟩
    by_cases hid : id = E.getID key.getPubKey
    · subst hid
      simpa [Held] using henc
    · simpa [Function.update_of_ne hid, AList.lookup_insert_ne hid] using h.held id

theorem encryptLoop_held {l : List (Sigma fun _ : KeyID => CKey E)} (hn : l.NodupKeys)
    (hids : ∀ mKey ∈ l, mKey.1 = E.getID mKey.2.getPubKey) (hcrypto : s.fUseCrypto = true)
    (h : encryptLoop m l s = (true, s')) :
    s'.fUseCrypto = true ∧ s'.vMasterKey = s.vMasterKey ∧ ∀ id, (l.dlookup id).elim
      (s'.mapCryptedKeys.lookup id = s.mapCryptedKeys.lookup id) fun key =>
        Held m key (s'.mapCryptedKeys.lookup id) := by
  induction l generalizing s with
  | nil =>
    cases h
    exact ⟨hcrypto, rfl, fun _ => rfl⟩
  | cons mKey l ih =>
    obtain ⟨a, key⟩ := mKey
    obtain ⟨ha, hids'⟩ := List.forall_mem_cons.mp hids
    obtain rfl : a = E.getID key.getPubKey := ha
    obtain ⟨hfresh, hn⟩ := List.nodupKeys_cons.mp hn
    cases henc : encryptSecret E m key.vch (E.getHash key.getPubKey) with
    | none => simp [encryptLoop, henc] at h
    | some ct =>
      simp only [encryptLoop, henc, addCryptedKey, setCrypted, hcrypto, if_true] at h
      obtain ⟨hcrypto', hmaster, hheld⟩ := ih hn hids' (by rfl) h
      refine ⟨hcrypto', hmaster, fun id => ?_⟩
      have hid := hheld id
      by_cases heq : id = E.getID key.getPubKey
      · subst heq
        rw [List.dlookup_eq_none.mpr hfresh] at hid
        rw [List.dlookup_cons_eq]
        exact ⟨ct, by simpa using hid, henc⟩
      · rw [List.dlookup_cons_ne l _ heq]
        simpa [AList.lookup_insert_ne heq] using hid

theorem Plain.encryptKeys (h : Plain stored s) (call : s.encryptKeys m = (true, s')) : Sealed m stored s' := by
  unfold CCryptoKeyStore.encryptKeys at call
  split_ifs at call with hused
  · cases call
  have hcrypto : s.fUseCrypto = false := by simpa using (not_or.mp hused).2
  split at call
  · cases call
  · rename_i s₁ hloop
    cases call
    have hids : ∀ mKey ∈ s.mapKeys.entries, mKey.1 = E.getID mKey.2.getPubKey := fun mKey hmem =>
      h.ids _ _ (by rw [← h.keys hcrypto]; exact AList.mem_lookup_iff.mpr hmem)
    obtain ⟨hcrypto', hmaster, hheld⟩ := encryptLoop_held s.mapKeys.nodupKeys hids rfl hloop
    refine ⟨hcrypto', .inl (hmaster.trans h.master), fun id => ?_⟩
    rw [← h.keys hcrypto id]
    simpa [h.crypted, AList.lookup] using hheld id

theorem Plain.addKeyPubKey {ok : Bool} (h : Plain stored s) (key : CKey E)
    (call : s.addKeyPubKey key key.getPubKey = (ok, s')) :
    Plain (if ok then Function.update stored (E.getID key.getPubKey) (some key) else stored) s' := by
  cases hcrypto : s.fUseCrypto with
  | true =>
    simp only [CCryptoKeyStore.addKeyPubKey, isLocked, hcrypto, h.master] at call
    cases call
    exact h
  | false =>
    simp only [CCryptoKeyStore.addKeyPubKey, hcrypto] at call
    cases call
    refine ⟨h.crypted, h.master, fun _ id => ?_, fun id key' => ?_⟩
    · by_cases hid : id = E.getID key.getPubKey
      · subst hid
        simp
      · simpa [Function.update_of_ne hid, AList.lookup_insert_ne hid] using h.keys hcrypto id
    · by_cases hid : id = E.getID key.getPubKey
      · subst hid
        simp +contextual
      · simpa [Function.update_of_ne hid] using h.ids id key'

theorem Plain.setCrypted (h : Plain stored s) : Plain stored s.setCrypted.2 := by
  unfold CCryptoKeyStore.setCrypted
  split_ifs
  · exact h
  · exact ⟨h.crypted, h.master, nofun, h.ids⟩
  · exact h

theorem Plain.lock (h : Plain stored s) : Plain stored s.lock.2 := by
  unfold CCryptoKeyStore.lock
  have hset := h.setCrypted
  split <;> rename_i heq <;> rw [heq] at hset
  · exact hset
  · exact ⟨hset.crypted, rfl, hset.keys, hset.ids⟩

theorem Plain.unlock {c : List UInt8} (h : Plain stored s) :
    ∃ s', s.unlock c = .ok (false, s') ∧ Plain stored s' := by
  unfold CCryptoKeyStore.unlock
  have hset := h.setCrypted
  split <;> rename_i heq <;> rw [heq] at hset
  · exact ⟨_, rfl, hset⟩
  · rw [hset.crypted]
    exact ⟨_, rfl, hset⟩

theorem Sealed.lock (h : Sealed m stored s) : Sealed m stored s.lock.2 := by
  simp only [CCryptoKeyStore.lock, CCryptoKeyStore.setCrypted, h.crypto, if_true]
  exact ⟨rfl, .inl rfl, h.held⟩

theorem Sealed.unlock {ok : Bool} (hE : Lawful E m) (h : Sealed m stored s) {c : List UInt8}
    (call : s.unlock c = .ok (ok, s')) : Sealed m stored s' := by
  obtain ⟨-, hopen⟩ | ⟨-, hfail | hstop⟩ := h.unlock_cases hE c
  · cases hopen.symm.trans call
    exact ⟨h.crypto, .inr rfl, h.held⟩
  · cases hfail.symm.trans call
    exact h
  · cases hstop.symm.trans call

/-- The invariant of either phase. -/
theorem Run.inv (hE : Lawful E m) {encrypted : Bool} (h : Run m encrypted stored s) :
    if encrypted then Sealed m stored s else Plain stored s := by
  induction h with
  | start => exact ⟨rfl, rfl, fun _ _ => rfl, nofun⟩
  | @addKeyPubKey encrypted _ _ _ _ key before call ih =>
    cases encrypted with
    | true => exact Sealed.addKeyPubKey ih key call
    | false => exact Plain.addKeyPubKey ih key call
  | @lock encrypted _ _ before ih =>
    cases encrypted with
    | true => exact Sealed.lock ih
    | false => exact Plain.lock ih
  | @unlock encrypted _ _ _ _ candidate before call ih =>
    cases encrypted with
    | true => exact Sealed.unlock hE ih call
    | false =>
      obtain ⟨s', hfail, hplain⟩ := Plain.unlock ih
      cases hfail.symm.trans call
      exact hplain
  | encryptKeys before call ih => exact Plain.encryptKeys ih call

theorem Sealed.getKey (hE : Lawful E m) (h : Sealed m stored s) (hopen : s.isLocked = false) (id : KeyID) :
    s.getKey id = (stored id).map some := by
  have hm : s.vMasterKey = m := h.master.resolve_left fun hnil => by simp [isLocked, h.crypto, hnil] at hopen
  have hid := h.held id
  cases hkey : stored id with
  | none =>
    rw [hkey] at hid
    simp [CCryptoKeyStore.getKey, h.crypto, show s.mapCryptedKeys.lookup id = none from hid]
  | some key =>
    rw [hkey] at hid
    obtain ⟨ct, hlook, henc⟩ := hid
    simp [CCryptoKeyStore.getKey, h.crypto, hlook, hm, decryptSecret_of_encryptSecret hE henc, key.valid.1, set_self hE]

/-- A wallet's keys are never lost to its passphrase. -/
theorem encrypted_keys_kept (hE : Lawful E m) {encrypted : Bool} (h : Run m encrypted stored s) :
    (∀ c, s.unlock c ≠ .error .corrupted) ∧
      (encrypted = true → ∀ c, (∃ s', s.unlock c = .ok (true, s')) ↔ c = m ∧ ∃ id, stored id ≠ none) ∧
      (encrypted = true → ∀ c s', s.unlock c = .ok (false, s') → s' = s) ∧
      (s.isLocked = false → ∀ id, s.getKey id = (stored id).map some) := by
  have hinv := h.inv hE
  cases encrypted with
  | true =>
    have hcases := Sealed.unlock_cases hE hinv
    refine ⟨fun c hc => ?_, fun _ c => ?_, fun _ c s' hfail => ?_, Sealed.getKey hE hinv⟩
    · simpa [hc] using hcases c
    · obtain ⟨hright, hopen⟩ | ⟨hwrong, hfail | hstop⟩ := hcases c
      · exact iff_of_true ⟨_, hopen⟩ hright
      · simp [hfail, hwrong]
      · simp [hstop, hwrong]
    · obtain ⟨-, hopen⟩ | ⟨-, heq | hstop⟩ := hcases c
      · cases hopen.symm.trans hfail
      · cases heq.symm.trans hfail
        rfl
      · cases hstop.symm.trans hfail
  | false =>
    refine ⟨fun c hc => ?_, nofun, nofun, fun hopen id => ?_⟩
    · obtain ⟨s', hfail, -⟩ := Plain.unlock hinv (c := c)
      cases hfail.symm.trans hc
    · have hcrypto : s.fUseCrypto = false := by simpa [isLocked, hinv.master] using hopen
      simp [CCryptoKeyStore.getKey, hcrypto, hinv.keys hcrypto id]

end CCryptoKeyStore

namespace Example

open CCryptoKeyStore

/-- A cipher that puts the key before the text. -/
def crypto : KeyCrypto (List UInt8) where
  check _ := true
  pubKey vch fCompressed := if fCompressed then 2 :: vch else 4 :: (vch ++ vch)
  getID vchPubKey := vchPubKey
  getHash _ := 0
  encrypt key _ plain := some (key ++ plain)
  decrypt key _ ct := if key.isPrefixOf ct then some (ct.drop key.length) else none

def oneKey : CKey crypto := ⟨List.replicate 32 7, true, rfl, rfl⟩

def master : List UInt8 := List.replicate 32 1

theorem lawful : Lawful crypto master := by
  refine ⟨?_, ?_, ?_⟩
  · rintro ⟨vch, fCompressed, hsize, -⟩
    cases fCompressed <;> simp [CKey.getPubKey, crypto, isCompressed, hsize]
  · intro k nIV plain ct h
    cases h
    simp [crypto]
  · intro c hc key key' ct hct hsecret
    cases hct
    unfold decryptSecret at hsecret
    split_ifs at hsecret with hsize
    simp only [crypto] at hsecret
    split_ifs at hsecret with hbegins
    rw [ List.isPrefixOf_iff_prefix] at hbegins
    have hlength : c.length = master.length := by simp [hsize, master]
    have hwithin := List.prefix_of_prefix_length_le hbegins (List.prefix_append _ _)
      (Nat.le_of_eq hlength)
    exact absurd (hwithin.eq_of_length hlength) hc

/-- The store with the key, encrypted and then unlocked. -/
def opened : CCryptoKeyStore crypto :=
  { (((new crypto).addKeyPubKey oneKey oneKey.getPubKey).2.encryptKeys master).2 with
    vMasterKey := master, fDecryptionThoroughlyChecked := true }

theorem run_opened : ∃ stored, Run master true stored opened ∧ stored oneKey.getPubKey = some oneKey :=
  ⟨_, .unlock master (.encryptKeys (.addKeyPubKey oneKey .start rfl) rfl) rfl,
    by rw [if_pos rfl]; exact Function.update_self (crypto.getID oneKey.getPubKey) _ _⟩

end Example

theorem encrypted_keys_kept_example : Example.opened.getKey Example.oneKey.getPubKey = some (some Example.oneKey) := by
  obtain ⟨stored, hrun, hstored⟩ := Example.run_opened
  rw [(CCryptoKeyStore.encrypted_keys_kept Example.lawful hrun).2.2.2 rfl, hstored]
  rfl

end KeyStore
end Reddcoin
