import IniNode.Lib.Store
/-!
# The wallet manager

`wallet.Manager` over one directory: a file for each BIP39 wallet, and small files beside them that keep the index of the
next address. Which of these files a wallet uses is decided by its kind and, for BIP39 wallets, its name. The
cryptography is in `Env`; a passphrase opens a file exactly if it is the one it was saved with.
-/

open IniNode.Lib

namespace IniNode.Wallets

abbrev Seed := List UInt8

abbrev PrivKey := List UInt8

inductive AddressType
  | bech32
  | segwit
  | legacy
deriving DecidableEq

/-- What the manager calls: paths, mnemonics, key derivation, addresses. -/
structure Env where
  trimSpace : String → String
  /-- `walletPath`, in the directory of the manager. -/
  walletPath : String → String
  validateMnemonic : String → Bool
  mnemonicToSeed : String → Seed
  legacyRegularSeed : String → String → Option Seed
  /-- `ImportWIF`, the key as its bytes. -/
  importWIF : String → Option Seed
  /-- Whether `hdkeychain.NewMaster` takes the seed. -/
  newMaster : Seed → Bool
  /-- `childKey` on the external chain. -/
  childKey : Seed → Nat → Option PrivKey
  privKeyFromBytes : Seed → PrivKey
  deriveAddressFor : PrivKey → AddressType → String

/-! ## Wallets -/

/-- What decides all keys of a wallet: the seed, and whether it is itself the key at index 0. -/
structure KeyMaterial where
  seed : Seed
  legacy : Bool
deriving DecidableEq

structure Wallet extends KeyMaterial where
  nextIndex : Nat := 0
  wif : Bool := false

inductive Suffix
  | bip39
  | legacy
  | wif
deriving DecidableEq

def Wallet.sidecarSuffix (w : Wallet) : Suffix := if w.wif then .wif else if w.legacy then .legacy else .bip39

section Keys
variable (env : Env)

def KeyMaterial.privateKey (k : KeyMaterial) (index : Nat) : Option PrivKey :=
  if k.legacy ∧ index = 0 then
    if k.seed.length = 32 then some (env.privKeyFromBytes k.seed) else none
  else env.childKey k.seed index

def KeyMaterial.address (k : KeyMaterial) (index : Nat) : Option String :=
  (k.privateKey env index).map fun priv => env.deriveAddressFor priv .bech32

def newFromSeed (seed : Seed) : Option Wallet :=
  if 16 ≤ seed.length ∧ seed.length ≤ 64 ∧ env.newMaster seed then some { seed := seed, legacy := false } else none

def newFromLegacy (email password : String) : Option Wallet := do
  let seed ← env.legacyRegularSeed email password
  let w ← newFromSeed env seed
  some { w with legacy := true }

def newFromWIF (wif : String) : Option Wallet := do
  let seed ← env.importWIF wif
  let w ← newFromSeed env seed
  some { w with legacy := true, wif := true }

def walletAddressVariants (w : Wallet) : Option (List String) :=
  (List.range (if w.nextIndex < 1 then 1 else w.nextIndex)).foldlM (fun out i =>
    (w.privateKey env i).map fun priv =>
      out ++ [AddressType.bech32, .segwit, .legacy].map (env.deriveAddressFor priv)) []

end Keys

/-! ## The directory -/

/-- `storedWallet`, with the passphrase it was encrypted with. -/
structure StoredWallet where
  seed : Seed
  passphrase : String

/-- The file that keeps the next index. -/
inductive Sidecar
  | named (walletPath : String)
  | legacy
  | wif
deriving DecidableEq

structure Directory where
  wallets : Store String StoredWallet := fun _ => none
  metas : Store Sidecar Nat := fun _ => none

structure Manager where
  unlocked : Option Wallet := none
  name : String := ""

inductive Refusal
  | alreadyUnlocked
  | alreadyExists (name : String)
  | invalidMnemonic
  | noFile
  | wrongPassphrase
  | badKey
  | locked
deriving DecidableEq

section Calls
variable (env : Env) (m : Manager) (dir : Directory)

def normalizeName (name : String) : String :=
  if env.trimSpace name = "" then "default" else env.trimSpace name

def metaPathFor : Suffix → Sidecar
  | .legacy => .legacy
  | .wif => .wif
  | .bip39 => .named (env.walletPath m.name)

def loadNextIndexFor (suffix : Suffix) : Nat := (dir.metas (metaPathFor env m suffix)).getD 0

def saveNextIndexFor (i : Nat) (suffix : Suffix) : Directory :=
  { dir with metas := dir.metas.write ⟨metaPathFor env m suffix, some i⟩ }

/-- The end of `Create` and of `Restore`: the wallet is saved under the name and left unlocked. -/
def saveWallet (name passphrase : String) (w : Wallet) : Manager × Directory :=
  let dir := { dir with wallets := dir.wallets.write ⟨env.walletPath name, some ⟨w.seed, passphrase⟩⟩ }
  let m := { m with name := name }
  ({ m with unlocked := some w }, saveNextIndexFor env m dir 0 .bip39)

/-- `Create`, with the mnemonic it generates. -/
def create (name passphrase mnemonic : String) : Except Refusal (Manager × Directory) :=
  let name := normalizeName env name
  if m.unlocked.isSome then .error .alreadyUnlocked
  else if (dir.wallets (env.walletPath name)).isSome then .error (.alreadyExists name)
  else
    match newFromSeed env (env.mnemonicToSeed mnemonic) with
    | none => .error .badKey
    | some w => .ok (saveWallet env m dir name passphrase w)

def restore (name mnemonic passphrase : String) : Except Refusal (Manager × Directory) :=
  let name := normalizeName env name
  if m.unlocked.isSome then .error .alreadyUnlocked
  else if (dir.wallets (env.walletPath name)).isSome then .error (.alreadyExists name)
  else
    let mnemonic := env.trimSpace mnemonic
    if env.validateMnemonic mnemonic then
      match newFromSeed env (env.mnemonicToSeed mnemonic) with
      | none => .error .badKey
      | some w => .ok (saveWallet env m dir name passphrase w)
    else .error .invalidMnemonic

def unlockWallet (path passphrase : String) : Except Refusal Wallet :=
  match dir.wallets path with
  | none => .error .noFile
  | some stored =>
    if stored.passphrase = passphrase then
      match newFromSeed env stored.seed with
      | none => .error .badKey
      | some w => .ok w
    else .error .wrongPassphrase

/-- The end of `Unlock`, `Login` and `LoginWIF`: the wallet goes on at the index that is kept for it. -/
def resume (name : String) (w : Wallet) : Manager :=
  let m := { m with name := name }
  { m with unlocked := some { w with nextIndex := loadNextIndexFor env m dir w.sidecarSuffix } }

def unlock (name passphrase : String) : Except Refusal Manager :=
  if m.unlocked.isSome then .ok m
  else
    let name := normalizeName env name
    (unlockWallet env dir (env.walletPath name) passphrase).map (resume env m dir name)

def login (email password : String) : Except Refusal Manager :=
  if m.unlocked.isSome then .error .alreadyUnlocked
  else
    match newFromLegacy env email password with
    | none => .error .badKey
    | some w => .ok (resume env m dir "legacy" w)

def loginWIF (wif : String) : Except Refusal Manager :=
  if m.unlocked.isSome then .error .alreadyUnlocked
  else
    match newFromWIF env wif with
    | none => .error .badKey
    | some w => .ok (resume env m dir "wif" w)

def lock : Manager := { m with unlocked := none }

def nextAddress : Except Refusal (String × Manager × Directory) :=
  match m.unlocked with
  | none => .error .locked
  | some w =>
    let idx := w.nextIndex
    match w.address env idx with
    | none => .error .badKey
    | some addr =>
      let next := (idx + 1) % 2 ^ 32
      .ok (addr, { m with unlocked := some { w with nextIndex := next } },
        saveNextIndexFor env m dir next w.sidecarSuffix)

end Calls

/-! ## Histories -/

inductive Call
  | create (name passphrase mnemonic : String)
  | restore (name mnemonic passphrase : String)
  | unlock (name passphrase : String)
  | login (email password : String)
  | loginWIF (wif : String)
  | lock
  | nextAddress
  /-- The program ends and a new manager is made for the directory. -/
  | restart

/-- An address that `NextAddress` returned, with the wallet and the file it went by. -/
structure Handed where
  sidecar : Sidecar
  key : KeyMaterial
  index : Nat
  address : String
deriving DecidableEq

/-- The manager, its files and the addresses handed out. -/
structure State where
  manager : Manager := {}
  dir : Directory := {}
  handed : List Handed := []

def State.after (st : State) : Except Refusal Manager → State
  | .ok m => { st with manager := m }
  | .error _ => st

def State.afterSave (st : State) : Except Refusal (Manager × Directory) → State
  | .ok (m, dir) => { st with manager := m, dir := dir }
  | .error _ => st

variable (env : Env)

def State.next (st : State) : State :=
  match st.manager.unlocked, nextAddress env st.manager st.dir with
  | some w, .ok (addr, m, dir) =>
    ⟨m, dir, st.handed ++ [⟨metaPathFor env st.manager w.sidecarSuffix, w.toKeyMaterial, w.nextIndex, addr⟩]⟩
  | _, _ => st

def step (st : State) : Call → Option State
  | .create name passphrase mnemonic => some (st.afterSave (create env st.manager st.dir name passphrase mnemonic))
  | .restore name mnemonic passphrase => some (st.afterSave (restore env st.manager st.dir name mnemonic passphrase))
  | .unlock name passphrase => some (st.after (unlock env st.manager st.dir name passphrase))
  | .login email password => some (st.after (login env st.manager st.dir email password))
  | .loginWIF wif => some (st.after (loginWIF env st.manager st.dir wif))
  | .lock => some { st with manager := lock st.manager }
  | .nextAddress => some (st.next env)
  | .restart => some { st with manager := {} }

end IniNode.Wallets
