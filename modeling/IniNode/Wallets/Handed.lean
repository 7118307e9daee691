import IniNode.Lib.Run
import IniNode.Wallets.Manager
/-!
# The addresses of a key

The indexes of the addresses that go by one file are 0, 1, 2 and so on, whatever wallets use the file. They are the
indexes of one key as long as the key goes by one file and the file by one key, which nothing in the program sees to.
-/

open IniNode.Lib List Option

namespace IniNode.Wallets

variable {env : Env} {st st' : State} {w : Wallet} {e : Handed}

/-! ## What a call does -/

/-- Every address of the key went by the file. -/
def OnlyFrom (handed : List Handed) (key : KeyMaterial) (sidecar : Sidecar) : Prop :=
  ∀ e ∈ handed, e.key = key → e.sidecar = sidecar

/-- Every address that went by the file is of the key. -/
def OnlyFor (handed : List Handed) (sidecar : Sidecar) (key : KeyMaterial) : Prop :=
  ∀ e ∈ handed, e.sidecar = sidecar → e.key = key

/-- A call that opens a wallet opens it with the file that all addresses of its key went by. `NextAddress` is called for
a file all of whose addresses were of the key, and below the last index. -/
def Apart (env : Env) (st : State) : Call → Prop
  | .create name _ mnemonic => st.manager.unlocked = none →
    OnlyFrom st.handed ⟨env.mnemonicToSeed mnemonic, false⟩ (.named (env.walletPath (normalizeName env name)))
  | .restore name mnemonic _ => st.manager.unlocked = none →
    OnlyFrom st.handed ⟨env.mnemonicToSeed (env.trimSpace mnemonic), false⟩
      (.named (env.walletPath (normalizeName env name)))
  | .unlock name _ => st.manager.unlocked = none →
    ∀ stored, st.dir.wallets (env.walletPath (normalizeName env name)) = some stored →
      OnlyFrom st.handed ⟨stored.seed, false⟩ (.named (env.walletPath (normalizeName env name)))
  | .login email password => st.manager.unlocked = none →
    ∀ seed, env.legacyRegularSeed email password = some seed → OnlyFrom st.handed ⟨seed, true⟩ .legacy
  | .loginWIF wif => st.manager.unlocked = none →
    ∀ seed, env.importWIF wif = some seed → OnlyFrom st.handed ⟨seed, true⟩ .wif
  | .nextAddress => ∀ w, st.manager.unlocked = some w →
    OnlyFor st.handed (metaPathFor env st.manager w.sidecarSuffix) w.toKeyMaterial ∧ w.nextIndex + 1 < 2 ^ 32
  | .lock | .restart => True

/-- What a call changes when it keeps keys and files apart. -/
inductive Changed (env : Env) (st : State) : State → Prop
  | same : Changed env st st
  | closed (name : String) : Changed env st { st with manager := ⟨none, name⟩ }
  | resumed (name : String) (w : Wallet)
    (only : OnlyFrom st.handed w.toKeyMaterial (metaPathFor env { st.manager with name := name } w.sidecarSuffix))
    (file : ∀ p, metaPathFor env { st.manager with name := name } w.sidecarSuffix = .named p →
      (st.dir.wallets p).isSome) :
    Changed env st { st with manager := resume env st.manager st.dir name w }
  | saved (name passphrase : String) (seed : Seed) (free : st.dir.wallets (env.walletPath name) = none)
    (only : OnlyFrom st.handed ⟨seed, false⟩ (.named (env.walletPath name))) :
    Changed env st
      { st with
        manager := ⟨some { seed := seed, legacy := false }, name⟩
        dir :=
          { wallets := st.dir.wallets.write ⟨env.walletPath name, some ⟨seed, passphrase⟩⟩
            metas := st.dir.metas.write ⟨.named (env.walletPath name), some 0⟩ } }
  | handed (w : Wallet) (addr : String) (unlocked : st.manager.unlocked = some w)
    (derived : w.address env w.nextIndex = some addr)
    (only : OnlyFor st.handed (metaPathFor env st.manager w.sidecarSuffix) w.toKeyMaterial) :
    Changed env st
      { manager := { st.manager with unlocked := some { w with nextIndex := w.nextIndex + 1 } }
        dir := saveNextIndexFor env st.manager st.dir (w.nextIndex + 1) w.sidecarSuffix
        handed := st.handed ++
          [⟨metaPathFor env st.manager w.sidecarSuffix, w.toKeyMaterial, w.nextIndex, addr⟩] }

theorem newFromSeed_eq {seed : Seed} (h : newFromSeed env seed = some w) : w = { seed := seed, legacy := false } := by
  rw [newFromSeed, ite_none_right_eq_some] at h
  exact (Option.some.inj h.2).symm

theorem newFromLegacy_eq {email password : String} (h : newFromLegacy env email password = some w) :
    ∃ seed, env.legacyRegularSeed email password = some seed ∧ w = { seed := seed, legacy := true } := by
  obtain ⟨seed, hseed, h⟩ := bind_eq_some_iff.1 h
  obtain ⟨w0, hw0, h⟩ := bind_eq_some_iff.1 h
  obtain rfl := newFromSeed_eq hw0
  cases h
  exact ⟨seed, hseed, rfl⟩

theorem newFromWIF_eq {wif : String} (h : newFromWIF env wif = some w) :
    ∃ seed, env.importWIF wif = some seed ∧ w = { seed := seed, legacy := true, wif := true } := by
  obtain ⟨seed, hseed, h⟩ := bind_eq_some_iff.1 h
  obtain ⟨w0, hw0, h⟩ := bind_eq_some_iff.1 h
  obtain rfl := newFromSeed_eq hw0
  cases h
  exact ⟨seed, hseed, rfl⟩

theorem Changed.create {name passphrase mnemonic : String} (h : Apart env st (.create name passphrase mnemonic)) :
    Changed env st (st.afterSave (create env st.manager st.dir name passphrase mnemonic)) := by
  rw [Wallets.create]
  split
  · exact .same
  next hopen =>
    split
    · exact .same
    next hfree =>
      split
      · exact .same
      next w hw =>
        obtain rfl := newFromSeed_eq hw
        exact .saved _ passphrase _ (by simpa using hfree) (h (by simpa using hopen))

theorem Changed.restore {name mnemonic passphrase : String} (h : Apart env st (.restore name mnemonic passphrase)) :
    Changed env st (st.afterSave (restore env st.manager st.dir name mnemonic passphrase)) := by
  rw [Wallets.restore]
  split
  · exact .same
  next hopen =>
    split
    · exact .same
    next hfree =>
      dsimp only
      split
      · split
        · exact .same
        next w hw =>
          obtain rfl := newFromSeed_eq hw
          exact .saved _ passphrase _ (by simpa using hfree) (h (by simpa using hopen))
      · exact .same

theorem Changed.unlock {name passphrase : String} (h : Apart env st (.unlock name passphrase)) :
    Changed env st (st.after (unlock env st.manager st.dir name passphrase)) := by
  rw [Wallets.unlock]
  split
  · exact .same
  next hopen =>
    dsimp only
    rw [unlockWallet]
    split
    · exact .same
    next stored hstored =>
      split
      · split
        · exact .same
        next w hw =>
          obtain rfl := newFromSeed_eq hw
          refine .resumed _ _ (h (by simpa using hopen) stored hstored) ?_
          rintro _ ⟨⟩
          rw [hstored]
          rfl
      · exact .same

theorem Changed.login {email password : String} (h : Apart env st (.login email password)) :
    Changed env st (st.after (login env st.manager st.dir email password)) := by
  rw [Wallets.login]
  split
  · exact .same
  next hopen =>
    split
    · exact .same
    next w hw =>
      obtain ⟨seed, hseed, rfl⟩ := newFromLegacy_eq hw
      exact .resumed _ _ (h (by simpa using hopen) seed hseed) (by rintro _ ⟨⟩)

theorem Changed.loginWIF {wif : String} (h : Apart env st (.loginWIF wif)) :
    Changed env st (st.after (loginWIF env st.manager st.dir wif)) := by
  rw [Wallets.loginWIF]
  split
  · exact .same
  next hopen =>
    split
    · exact .same
    next w hw =>
      obtain ⟨seed, hseed, rfl⟩ := newFromWIF_eq hw
      exact .resumed _ _ (h (by simpa using hopen) seed hseed) (by rintro _ ⟨⟩)

theorem Changed.nextAddress (h : Apart env st .nextAddress) : Changed env st (st.next env) := by
  rw [State.next]
  split
  next w addr m dir hw hnext =>
    rw [Wallets.nextAddress, hw] at hnext
    dsimp only at hnext
    split at hnext
    · cases hnext
    next addr' haddr =>
      obtain ⟨honly, hlt⟩ := h w hw
      rw [Nat.mod_eq_of_lt hlt] at hnext
      cases hnext
      exact .handed w _ hw haddr honly
  next => exact .same

theorem step_changed {a : Call} (hok : Apart env st a) (hs : step env st a = some st') : Changed env st st' := by
  cases a <;> cases hs
  case create => exact .create hok
  case restore => exact .restore hok
  case unlock => exact .unlock hok
  case login => exact .login hok
  case loginWIF => exact .loginWIF hok
  case lock => exact .closed _
  case nextAddress => exact .nextAddress hok
  case restart => exact .closed _

/-! ## What every history keeps -/

/-- The indexes of some of the addresses, in the order in which they were handed out. -/
def indexes (handed : List Handed) (p : Handed → Bool) : List Nat := (handed.filter p).map Handed.index

theorem indexes_concat (handed : List Handed) (p : Handed → Bool) (e : Handed) :
    indexes (handed ++ [e]) p = if p e then indexes handed p ++ [e.index] else indexes handed p := by
  rw [indexes, filter_append, map_append]
  split
  next h => rw [filter_singleton, h]; rfl
  next h => rw [filter_singleton, Bool.eq_false_iff.2 h]; exact append_nil _

/-- What relates the files to the addresses handed out. -/
structure Kept (env : Env) (st : State) : Prop where
  numbered : ∀ s, indexes st.handed (·.sidecar = s) = range ((st.dir.metas s).getD 0)
  loaded : ∀ w, st.manager.unlocked = some w →
    w.nextIndex = (st.dir.metas (metaPathFor env st.manager w.sidecarSuffix)).getD 0
  opened : ∀ w, st.manager.unlocked = some w →
    OnlyFrom st.handed w.toKeyMaterial (metaPathFor env st.manager w.sidecarSuffix)
  file : ∀ w, st.manager.unlocked = some w → ∀ p, metaPathFor env st.manager w.sidecarSuffix = .named p →
    (st.dir.wallets p).isSome
  files : ∀ p, (st.dir.metas (.named p)).isSome → (st.dir.wallets p).isSome
  paired : ∀ e ∈ st.handed, OnlyFor st.handed e.sidecar e.key ∧ OnlyFrom st.handed e.key e.sidecar
  derived : ∀ e ∈ st.handed, e.key.address env e.index = some e.address

theorem kept_init : Kept env {} where
  numbered _ := rfl
  loaded := by rintro _ ⟨⟩
  opened := by rintro _ ⟨⟩
  file := by rintro _ ⟨⟩
  files := by rintro _ ⟨⟩
  paired := by rintro _ ⟨⟩
  derived := by rintro _ ⟨⟩

theorem OnlyFrom.concat {handed : List Handed} {key : KeyMaterial} (h : OnlyFrom handed key e.sidecar) :
    OnlyFrom (handed ++ [e]) key e.sidecar := forall_mem_append.2 ⟨h, forall_mem_singleton.2 fun _ => rfl⟩

theorem OnlyFor.concat {handed : List Handed} {sidecar : Sidecar} (h : OnlyFor handed sidecar e.key) :
    OnlyFor (handed ++ [e]) sidecar e.key := forall_mem_append.2 ⟨h, forall_mem_singleton.2 fun _ => rfl⟩

theorem Kept.saved (h : Kept env st) {name passphrase : String} {seed : Seed}
    (free : st.dir.wallets (env.walletPath name) = none)
    (only : OnlyFrom st.handed ⟨seed, false⟩ (.named (env.walletPath name))) :
    Kept env
      { st with
        manager := ⟨some { seed := seed, legacy := false }, name⟩
        dir :=
          { wallets := st.dir.wallets.write ⟨env.walletPath name, some ⟨seed, passphrase⟩⟩
            metas := st.dir.metas.write ⟨.named (env.walletPath name), some 0⟩ } } := by
  -- no address went by a file whose wallet is not there
  have hnone : st.dir.metas (.named (env.walletPath name)) = none := by
    by_contra hsome
    have hfile := h.files _ (isSome_iff_ne_none.2 hsome)
    rw [free] at hfile
    cases hfile
  have hwallets : ∀ p, p = env.walletPath name ∨ (st.dir.wallets p).isSome →
      (st.dir.wallets.write ⟨env.walletPath name, some ⟨seed, passphrase⟩⟩ p).isSome := by
    intro p hp
    rw [Store.write_apply]
    split
    · rfl
    next hne => exact hp.resolve_left hne
  constructor
  case numbered =>
    intro s
    rw [h.numbered s]
    dsimp only
    rw [Store.write_apply]
    split
    next hs =>
      rw [hs, hnone]
      rfl
    next => rfl
  case loaded =>
    rintro _ ⟨⟩
    show 0 = (st.dir.metas.write ⟨.named (env.walletPath name), some 0⟩ (.named (env.walletPath name))).getD 0
    rw [Store.write_apply, if_pos rfl, getD_some]
  case opened =>
    rintro _ ⟨⟩
    exact only
  case file =>
    rintro _ ⟨⟩ _ ⟨⟩
    exact hwallets _ (.inl rfl)
  case files =>
    intro p hp
    dsimp only at hp
    rw [Store.write_apply] at hp
    split at hp
    next hs =>
      cases hs
      exact hwallets _ (.inl rfl)
    next => exact hwallets p (.inr (h.files p hp))
  case paired => exact h.paired
  case derived => exact h.derived

theorem Kept.handed (h : Kept env st) {addr : String} (unlocked : st.manager.unlocked = some w)
    (derived : w.address env w.nextIndex = some addr)
    (only : OnlyFor st.handed (metaPathFor env st.manager w.sidecarSuffix) w.toKeyMaterial) :
    Kept env
      { manager := { st.manager with unlocked := some { w with nextIndex := w.nextIndex + 1 } }
        dir := saveNextIndexFor env st.manager st.dir (w.nextIndex + 1) w.sidecarSuffix
        handed := st.handed ++
          [⟨metaPathFor env st.manager w.sidecarSuffix, w.toKeyMaterial, w.nextIndex, addr⟩] } := by
  have hidx := h.loaded w unlocked
  have hopen := h.opened w unlocked
  have hfile := h.file w unlocked
  -- the name of the manager stays, so the wallet keeps its file
  generalize hside : metaPathFor env st.manager w.sidecarSuffix = side at hidx hopen hfile only
  constructor
  case numbered =>
    intro s
    dsimp only [saveNextIndexFor]
    rw [indexes_concat, h.numbered s, Store.write_apply, hside]
    by_cases hs : s = side
    · subst hs
      rw [if_pos (by simp), if_pos rfl, ← hidx, getD_some, range_succ]
    · rw [if_neg (by simpa using Ne.symm hs), if_neg hs]
  case loaded =>
    rintro _ ⟨⟩
    show w.nextIndex + 1 = (st.dir.metas.write ⟨metaPathFor env st.manager w.sidecarSuffix, some (w.nextIndex + 1)⟩
      (metaPathFor env st.manager w.sidecarSuffix)).getD 0
    rw [Store.write_apply, if_pos rfl, getD_some]
  case opened =>
    rintro _ ⟨⟩
    show OnlyFrom _ w.toKeyMaterial (metaPathFor env st.manager w.sidecarSuffix)
    rw [hside]
    exact hopen.concat (e := ⟨side, w.toKeyMaterial, w.nextIndex, addr⟩)
  case file =>
    rintro _ ⟨⟩ p hp
    exact hfile p (hside.symm.trans hp)
  case files =>
    intro p hp
    dsimp only [saveNextIndexFor] at hp
    rw [Store.write_apply, hside] at hp
    split at hp
    next hs => exact hfile p hs.symm
    next => exact h.files p hp
  case paired =>
    refine forall_mem_append.2 ⟨fun e he => ⟨?_, ?_⟩, forall_mem_singleton.2 ⟨?_, ?_⟩⟩
    · exact forall_mem_append.2 ⟨(h.paired e he).1, forall_mem_singleton.2 fun hside => (only e he hside.symm).symm⟩
    · exact forall_mem_append.2 ⟨(h.paired e he).2, forall_mem_singleton.2 fun hkey => (hopen e he hkey.symm).symm⟩
    · exact only.concat (e := ⟨side, w.toKeyMaterial, w.nextIndex, addr⟩)
    · exact hopen.concat (e := ⟨side, w.toKeyMaterial, w.nextIndex, addr⟩)
  case derived => exact forall_mem_append.2 ⟨h.derived, forall_mem_singleton.2 derived⟩

theorem Kept.step (h : Kept env st) (hc : Changed env st st') : Kept env st' := by
  cases hc with
  | same => exact h
  | closed name => exact ⟨h.numbered, by rintro _ ⟨⟩, by rintro _ ⟨⟩, by rintro _ ⟨⟩, h.files, h.paired,
    h.derived⟩
  | resumed name w only file =>
    refine ⟨h.numbered, ?_, ?_, ?_, h.files, h.paired, h.derived⟩
    · rintro _ ⟨⟩
      rfl
    · rintro _ ⟨⟩
      exact only
    · rintro _ ⟨⟩
      exact file
  | saved name passphrase seed free only => exact h.saved free only
  | handed w addr unlocked derived only => exact h.handed unlocked derived only

/-! ## The addresses of a wallet -/

/-- With every key at hand the list has each of them in all three forms. -/
theorem exists_variants {k : KeyMaterial} {l : List Nat} (h : ∀ i ∈ l, (k.privateKey env i).isSome) (out : List String) :
    ∃ vs, l.foldlM (fun out i => (k.privateKey env i).map fun priv =>
        out ++ [AddressType.bech32, .segwit, .legacy].map (env.deriveAddressFor priv)) out = some vs ∧
      (∀ a ∈ out, a ∈ vs) ∧
      ∀ i ∈ l, ∀ priv, k.privateKey env i = some priv → ∀ t, env.deriveAddressFor priv t ∈ vs := by
  induction l generalizing out with
  | nil => exact ⟨out, rfl, fun _ ha => ha, by rintro _ ⟨⟩⟩
  | cons i l ih =>
    obtain ⟨priv, hpriv⟩ := isSome_iff_exists.1 (h i mem_cons_self)
    obtain ⟨vs, hvs, hout, hl⟩ := ih (fun j hj => h j (mem_cons_of_mem _ hj))
      (out ++ [AddressType.bech32, .segwit, .legacy].map (env.deriveAddressFor priv))
    refine ⟨vs, ?_, fun a ha => hout a (mem_append_left _ ha), ?_⟩
    · rw [foldlM_cons, hpriv]
      exact hvs
    · intro j hj priv' hpriv' t
      obtain rfl | hj := mem_cons.1 hj
      · obtain rfl := mem_unique hpriv hpriv'
        exact hout _ (mem_append_right _ (List.mem_map_of_mem (by cases t <;> simp)))
      · exact hl j hj priv' hpriv' t

theorem Kept.mem_variants (h : Kept env st) (hw : st.manager.unlocked = some w) (he : e ∈ st.handed)
    (hkey : e.key = w.toKeyMaterial) : ∃ vs, walletAddressVariants env w = some vs ∧ e.address ∈ vs := by
  have hside := h.opened w hw e he hkey
  -- the file has handed out every index below the next one, to this key alone
  have hnum := h.numbered e.sidecar
  rw [hside, ← h.loaded w hw] at hnum
  have hmem : ∀ i, i < w.nextIndex ↔ ∃ x ∈ st.handed, x.sidecar = e.sidecar ∧ x.index = i := by
    intro i
    rw [← mem_range, ← hnum, indexes, hside]
    simp [and_assoc]
  have hlt : e.index < w.nextIndex := (hmem e.index).2 ⟨e, he, rfl, rfl⟩
  have hall : ∀ i ∈ range (if w.nextIndex < 1 then 1 else w.nextIndex),
      (w.toKeyMaterial.privateKey env i).isSome := by
    rw [if_neg (by omega)]
    intro i hi
    obtain ⟨x, hx, hxs, rfl⟩ := (hmem i).1 (mem_range.1 hi)
    obtain ⟨priv, hpriv, -⟩ := map_eq_some_iff.1 (h.derived x hx)
    rw [(h.paired e he).1 x hx hxs, hkey] at hpriv
    rw [hpriv]
    rfl
  obtain ⟨vs, hvs, -, hl⟩ := exists_variants hall []
  obtain ⟨priv, hpriv, haddr⟩ := map_eq_some_iff.1 (h.derived e he)
  rw [hkey] at hpriv
  refine ⟨vs, hvs, haddr ▸ hl e.index ?_ priv hpriv .bech32⟩
  rw [if_neg (by omega)]
  exact mem_range.2 hlt

theorem Kept.in_order (h : Kept env st) (key : KeyMaterial) : ∃ n, indexes st.handed (·.key = key) = range n := by
  by_cases hex : ∃ e ∈ st.handed, e.key = key
  · obtain ⟨e, he, rfl⟩ := hex
    obtain ⟨hfor, hfrom⟩ := h.paired e he
    refine ⟨(st.dir.metas e.sidecar).getD 0, ?_⟩
    rw [← h.numbered e.sidecar, indexes]
    refine congrArg _ (filter_congr fun x hx => ?_)
    exact decide_eq_decide.2 ⟨hfrom x hx, hfor x hx⟩
  · refine ⟨0, ?_⟩
    rw [indexes, filter_eq_nil_iff.2 fun x hx => ?_]
    · rfl
    · exact fun hkey => hex ⟨x, hx, of_decide_eq_true hkey⟩

/-- In every history that keeps keys and files apart, the indexes handed out for a key are 0, 1, 2 and so on, and every
address handed out for the key of the unlocked wallet is among the addresses of the wallet. -/
theorem addresses_in_order {calls : List Call} (hok : Along (step env) (Apart env) {} calls)
    (hr : run (step env) {} calls = some st) :
    (∀ key, ∃ n, indexes st.handed (·.key = key) = range n) ∧
      ∀ w, st.manager.unlocked = some w → ∀ e ∈ st.handed, e.key = w.toKeyMaterial →
        ∃ vs, walletAddressVariants env w = some vs ∧ e.address ∈ vs := by
  have hkept : Kept env st :=
    run_invariant (fun _ _ _ h hok hs => h.step (step_changed hok hs)) kept_init hok hr
  exact ⟨hkept.in_order, fun w hw e he hkey => hkept.mem_variants hw he hkey⟩

/-! ## Two accounts -/

/-- An environment in which words and passwords stand for their lengths, and keys for an index. -/
def plainEnv : Env where
  trimSpace := id
  walletPath name := name
  validateMnemonic _ := true
  mnemonicToSeed mnemonic := replicate 32 (UInt8.ofNat mnemonic.length)
  legacyRegularSeed email _ := some (replicate 32 (UInt8.ofNat email.length))
  importWIF wif := some (replicate 32 (UInt8.ofNat wif.length))
  newMaster _ := true
  childKey _ i := some [UInt8.ofNat i]
  privKeyFromBytes _ := [0]
  deriveAddressFor priv _ := if priv = [0] then "zero" else if priv = [1] then "one" else "more"

/-- A wallet is made, hands out an address, and goes on at the next one after a restart. -/
theorem addresses_in_order_restarted : ∃ st, run (step plainEnv) {}
      [.create "main" "pass" "words", .nextAddress, .restart, .unlock "main" "pass", .nextAddress] = some st ∧
    ((∀ key, ∃ n, indexes st.handed (·.key = key) = range n) ∧
      ∀ w, st.manager.unlocked = some w → ∀ e ∈ st.handed, e.key = w.toKeyMaterial →
        ∃ vs, walletAddressVariants plainEnv w = some vs ∧ e.address ∈ vs) := by
  refine exists_run rfl fun st hr => addresses_in_order ?_ hr
  refine .cons (fun _ => by rintro _ ⟨⟩) rfl ?_
  refine ⟨?_, ?_⟩
  · rintro _ ⟨⟩
    exact ⟨by rintro _ ⟨⟩, by decide⟩
  rintro _ ⟨⟩
  refine .cons trivial rfl ?_
  refine ⟨?_, ?_⟩
  · rintro - _ ⟨⟩ e he -
    rw [mem_singleton.1 he]
    rfl
  rintro _ ⟨⟩
  refine ⟨?_, fun _ _ => trivial⟩
  rintro _ ⟨⟩
  refine ⟨fun e he _ => ?_, by decide⟩
  rw [mem_singleton.1 he]

/-- The second account of a kind starts at index 1, and a mnemonic that is restored under another name hands out index 0
again and does not list the second address that it handed out before. -/
theorem addresses_shared : (∃ st, run (step plainEnv) {}
        [.login "a@b.cc" "password 1", .nextAddress, .lock, .login "aa@b.cc" "password 1", .nextAddress] = some st ∧
      indexes st.handed (·.key = ⟨replicate 32 7, true⟩) = [1]) ∧
    ∃ st w, run (step plainEnv) {}
        [.create "main" "pass" "words", .nextAddress, .nextAddress, .lock, .restore "other" "words" "pass",
          .nextAddress] = some st ∧
      indexes st.handed (·.key = ⟨replicate 32 5, false⟩) = [0, 1, 0] ∧ st.manager.unlocked = some w ∧
      w.toKeyMaterial = ⟨replicate 32 5, false⟩ ∧
      (⟨.named "main", ⟨replicate 32 5, false⟩, 1, "one"⟩ : Handed) ∈ st.handed ∧
      walletAddressVariants plainEnv w = some ["zero", "zero", "zero"] := by
  constructor
  · exact ⟨_, rfl, by decide +kernel⟩
  · exact ⟨_, _, rfl, by decide +kernel, rfl, by decide +kernel, by decide +kernel, by decide +kernel⟩

end IniNode.Wallets
