import IniNode.Netsync.HeaderRanges
/-!
# Bookkeeping of the header download

The maps of a header download stay in order as long as four things do not happen: a peer answers with more headers than
fit before the next range and the frontier, a vote that discards an answered range cuts the chain and restarts the
download in the middle of the loop, and the stall sample hands out the frontier itself, or hands on a range whose old
holder then stays bound to it.
-/

open IniNode.Lib List Option Function

namespace IniNode.Netsync

open Owned
namespace Manager

variable {χ : Type} {A : ChainApi χ} {e : Env} {s s' : Manager χ} {id : SyncId} {peer : Peer} {start height : Int}
    {r : RangeId}

/-! ## Ready ranges -/

variable {headers : List BlockHeader} {t : Manager χ} {turns : Nat}

theorem extendsHeight_eq {ok : Bool} (h : s.extendsHeight A headers height = (s', ok)) :
    ∃ w, s' = { s with reqWindow := w } := by
  unfold extendsHeight at h
  split at h
  · exact ⟨s.reqWindow, (Prod.mk.inj h).1.symm⟩
  · exact cachedHash_eq.imp fun w hw => (Prod.mk.inj h).1.symm.trans hw

theorem cutAtFront_eq_false {front : HeaderRange} (h : s.cutAtFront A e id front = (s', false)) :
    ∃ c, s' = { s with chain := c } := by
  unfold cutAtFront fastCutOnDoNotExtend rollbackToForkPoint at h
  repeat' split at h
  all_goals first
    | exact ⟨s.chain, (Prod.mk.inj h).1.symm⟩
    | exact ⟨_, (Prod.mk.inj h).1.symm⟩
    | cases (Prod.mk.inj h).2

theorem applyHeaders_eq (headers : List BlockHeader) : ∃ c w n, (s.applyHeaders A r headers).1 =
      { s with chain := c, reqWindow := w, rangeAt := update s.rangeAt r { s.rangeAt r with applied := n } } := by
  induction headers generalizing s with
  | nil =>
    refine ⟨s.chain, s.reqWindow, (s.rangeAt r).applied, ?_⟩
    rw [update_eq_self]
    rfl
  | cons header headers ih =>
    rw [applyHeaders]
    split
    next chain err _ =>
      refine ⟨chain, s.reqWindow, (s.rangeAt r).applied, ?_⟩
      rw [update_eq_self]
    · obtain ⟨c, w, n, hrest⟩ := ih
      rw [hrest]
      refine ⟨c, w, n, ?_⟩
      simp [setRange]

/-- Nobody but its peer has voted against the start of the range. -/
def Unopposed (s : Manager χ) (r : RangeId) : Prop :=
  ∀ a ∈ ((s.frontUnreachable.lookup (s.rangeAt r).start).getD ∅).keys, a = s.addr (s.rangeAt r).peer
deriving Decidable

theorem vote_of_unopposed (h : Unopposed s r) :
    (s.recordVote e (s.rangeAt r).start (s.rangeAt r).peer true).maybeFastCutFront A e (s.rangeAt r).start =
      s.recordVote e (s.rangeAt r).start (s.rangeAt r).peer true := by
  rw [maybeFastCutFront, if_pos]
  have hlookup : ((s.recordVote e (s.rangeAt r).start (s.rangeAt r).peer true).frontUnreachable.lookup
      (s.rangeAt r).start).getD ∅ = _ := congrArg (Option.getD · ∅) (AList.lookup_insert _)
  rw [hlookup]
  -- every vote is by the one address
  have hone : ∀ l : List String, ∀ m : AList fun _ : String => Nat, (∀ a ∈ m.keys, a = s.addr (s.rangeAt r).peer) →
      ∀ a ∈ (l.foldl (fun v a => v.erase a) m).keys, a = s.addr (s.rangeAt r).peer := by
    intro l
    induction l with
    | nil => exact fun m hm => hm
    | cons b l ih =>
      refine fun m hm => ih _ fun a ha => hm a ?_
      exact (AList.mem_erase.1 ha).2
  refine Nat.lt_succ_of_le (Subperm.length_le
    (subperm_of_subset (AList.keys_nodup _) fun a ha => mem_singleton.2 (hone _ _ ?_ a ha)))
  intro a ha
  obtain rfl | ha := (AList.mem_insert _).1 ha
  · rfl
  · exact h a ha

/-- The answered ranges are unopposed, but for a front that extends the chain. -/
def Quiet (A : ChainApi χ) (s : Manager χ) (id : SyncId) : Prop :=
  ∀ k r, (s.syncAt id).ranges.lookup k = some r → (s.rangeAt r).received = true →
    Unopposed s r ∨
      k = (s.syncAt id).nextHeight ∧ (s.extendsHeight A (s.rangeAt r).headers ((s.rangeAt r).start - 1)).2 = true

def QuietBehind (s : Manager χ) (id : SyncId) : Prop :=
  ∀ k r, (s.syncAt id).ranges.lookup k = some r → (s.rangeAt r).received = true → k ≠ (s.syncAt id).nextHeight →
    Unopposed s r

theorem Quiet.behind (h : Quiet A s id) : QuietBehind s id := fun k r hk hrec hne =>
  (h k r hk hrec).resolve_right fun hfront => hne hfront.1

theorem Quiet.of_sends (hsends : Sends id s s')
    (h : ∀ k r, (s.syncAt id).ranges.lookup k = some r → (s.rangeAt r).received = true → Unopposed s r) :
    Quiet A s' id := by
  intro k r hk hrec
  obtain ⟨hk, hrange⟩ := hsends.old k r hk hrec
  have hun := h k r hk (hrange ▸ hrec)
  refine .inl ?_
  rw [Unopposed, hsends.votes, hsends.addr, hrange]
  exact hun

theorem votes_recordVote_ne {prune : Bool} {k : Int} (h : k ≠ start) :
    (s.recordVote e start peer prune).frontUnreachable.lookup k = s.frontUnreachable.lookup k := AList.lookup_insert_ne h

theorem Working.discard (h : Working s id) (ho : Owned s)
    (hr : (s.syncAt id).ranges.lookup (s.syncAt id).nextHeight = some r) (hun : Unopposed s r) (hq : QuietBehind s id) :
    Working (s.discardFront A e id (s.rangeAt r)) id ∧ Quiet A (s.discardFront A e id (s.rangeAt r)) id := by
  have hlisted := h.kept.listed
  obtain ⟨hstart, -⟩ := hlisted _ r hr
  have hvote : s.voteAgainstFront A e id (s.rangeAt r) = s.recordVote e (s.rangeAt r).start (s.rangeAt r).peer true := by
    rw [voteAgainstFront, if_pos hstart, vote_of_unopposed hun]
  rw [discardFront, hvote]
  have hw : Working (s.recordVote e (s.rangeAt r).start (s.rangeAt r).peer true) id := h.congr rfl rfl rfl
  have hagain := @askAgain χ A e _ id r hw (ranges.recordVote ho) hr
  refine ⟨hagain.2, .of_sends hagain.1 fun k r' hk hrec => ?_⟩
  -- the range was there before, and it is not the front
  rw [dropRange, syncAt_setSync, update_self] at hk
  have hne : k ≠ (s.rangeAt r).start := ne_of_lookup_erase hk
  have hk : (s.syncAt id).ranges.lookup k = some r' := lookup_of_erase hk
  have hun' : Unopposed s r' := hq k r' hk hrec (hstart ▸ hne)
  intro a ha
  refine hun' a ?_
  have ha : a ∈ (((s.recordVote e (s.rangeAt r).start (s.rangeAt r).peer true).frontUnreachable.lookup
    (s.rangeAt r').start).getD ∅).keys := ha
  rwa [votes_recordVote_ne ((hlisted k r' hk).1 ▸ hne)] at ha

theorem Working.advanced {front : HeaderRange} (h : Working s id) (ho : Owned s)
    (hr : (s.syncAt id).ranges.lookup (s.syncAt id).nextHeight = some r) (hrec : (s.rangeAt r).received = true)
    (hstart : front.start = (s.rangeAt r).start) (hpeer : front.peer = (s.rangeAt r).peer)
    (hheaders : front.headers = (s.rangeAt r).headers) (hq : QuietBehind s id) :
    Working (s.advanceFront A e id front) id ∧ Quiet A (s.advanceFront A e id front) id := by
  have hfront : front.start = (s.syncAt id).nextHeight := hstart.trans (h.kept.listed _ r hr).1
  rw [advanceFront]
  generalize hs1 :
    (({ s with reqWindow := s.reqWindow.maybeSlide ((s.syncAt id).nextHeight - 1) } : Manager χ).dropRange id
    front.start front.peer) = s1
  have hat : s1.syncAt id =
      { s.syncAt id with
        ranges := (s.syncAt id).ranges.erase (s.syncAt id).nextHeight
        peerRange := (s.syncAt id).peerRange.erase (s.rangeAt r).peer } := by
    rw [← hs1, dropRange, syncAt_setSync, update_self, hfront, hpeer]
  have hrange : s1.rangeAt = s.rangeAt := by rw [← hs1]; rfl
  have hw1 : Working (s1.setSync id { s1.syncAt id with nextHeight := front.start + front.headers.length }) id := by
    refine ⟨?_, ?_⟩
    · rw [← hs1]
      exact h.sync
    · rw [syncAt_setSync, update_self, hat, hfront, hheaders]
      have hkept := h.kept.advance (fun p r hp => (ho.held id p r hp).2) hr rfl hrec
      exact hrange ▸ hkept
  have ho1 : Owned (s1.setSync id { s1.syncAt id with nextHeight := front.start + front.headers.length }) := by
    have hdrop : Owned s1 := by
      rw [← hs1]
      exact ranges.dropRange { ho with }
    exact ranges.shrink hdrop (fun _ _ hr => hr) fun _ _ hr => hr
  obtain ⟨hsends, hw⟩ := @assign χ A e _ id front.peer hw1 ho1
  refine ⟨hw, .of_sends hsends fun k r' hk hrec' => ?_⟩
  rw [syncAt_setSync, update_self, hat] at hk
  have hun : Unopposed s r' := hq k r' (lookup_of_erase hk) (hrange ▸ hrec') (ne_of_lookup_erase hk)
  subst hs1
  exact hun

/-- The headers of the front were handed to the chain: the range only notes how many were taken. -/
theorem Working.applied {c : χ} {w : RequestWindowCache} {n : Int} {ranges : List RangeId} (h : Working s id)
    (hr : (s.syncAt id).ranges.lookup (s.syncAt id).nextHeight = some r) (hrec : (s.rangeAt r).received = true)
    (hq : QuietBehind s id)
    (ht : t = { s with
      chain := c, reqWindow := w, appliedRanges := ranges
      rangeAt := update s.rangeAt r { s.rangeAt r with applied := n } }) :
    Working t id ∧ t.rangeAt r = { s.rangeAt r with applied := n } ∧ t.syncAt = s.syncAt ∧ QuietBehind t id := by
  subst ht
  refine ⟨⟨h.sync, ?_⟩, update_self .., rfl, fun k r' hk hrec' hne => ?_⟩
  · refine h.kept.setRange rfl fun _ hk => ?_
    exact (h.kept.fits _ r hk hrec).imp_right fun hnext k' r' => hnext k' r'
  · -- the front is listed once
    have hother : r' ≠ r := by
      rintro rfl
      exact hne ((h.kept.listed k r' hk).1.symm.trans (h.kept.listed _ r' hr).1)
    have hsame : update s.rangeAt r { s.rangeAt r with applied := n } r' = s.rangeAt r' :=
      update_of_ne hother _ _
    dsimp only at hrec'
    rw [hsame] at hrec'
    have hun : Unopposed s r' := hq k r' hk hrec' hne
    intro a ha
    dsimp only at ha ⊢
    rw [hsame] at ha ⊢
    exact hun a ha

/-- The loop over ready ranges. If the function goes on after it, the download it was called for still runs. -/
theorem Working.applyReady (h : Working s id) (ho : Owned s) (hq : Quiet A s id) :
    InOrder (s.applyReady A e id turns).1 ∧
      ((s.applyReady A e id turns).2 = true → Working (s.applyReady A e id turns).1 id) := by
  induction turns generalizing s with
  | zero => exact ⟨h.inOrder, fun _ => h⟩
  | succ turns ih =>
    rw [Manager.applyReady]
    dsimp only
    split
    · exact ⟨h.inOrder, fun _ => h⟩
    next r hr =>
      split
      · exact ⟨h.inOrder, fun _ => h⟩
      next hready =>
        have hrec : (s.rangeAt r).received = true := (not_not.1 hready).1
        have hfront := hq _ r hr hrec
        split
        next s1 hext =>
          have hun : Unopposed s r := by
            refine hfront.resolve_right fun hextends => ?_
            rw [hext] at hextends
            cases hextends.2
          have ho1 : Owned s1 := Netsync.of_fst (ranges.extendsHeight ho) hext
          obtain ⟨w, rfl⟩ := extendsHeight_eq hext
          split
          next s2 hcut =>
            have h1 : InOrder ({ s with reqWindow := w } : Manager χ) := h.inOrder.congr rfl rfl rfl
            exact ⟨(InOrder.restarts.cutAtFront ⟨h1, ho1⟩).1.of_fst hcut,
              fun hgo => absurd hgo Bool.false_ne_true⟩
          next s2 hcut =>
            have ho2 : Owned s2 := Netsync.of_fst (stable.restarts.cutAtFront ho1) hcut
            obtain ⟨c, hc⟩ := cutAtFront_eq_false hcut
            subst hc
            have h2 : Working ({ s with reqWindow := w, chain := c } : Manager χ) id := h.congr rfl rfl rfl
            obtain ⟨hw, hq'⟩ := @Working.discard χ A e _ id r h2 ho2 hr hun hq.behind
            exact ih hw (stable.discardFront ho2) hq'
        next s1 hext =>
          have ho1 : Owned s1 := Netsync.of_fst (ranges.extendsHeight ho) hext
          obtain ⟨w, rfl⟩ := extendsHeight_eq hext
          have ho2 : Owned ({ s with reqWindow := w, appliedRanges := r :: s.appliedRanges } : Manager χ) :=
            ⟨ho1.confirmed, ho1.listed, ho1.held, ho1.answers⟩
          have ho3 := @Stable.applyHeaders χ Owned A _ (s.rangeAt r).headers r stable ho2
          obtain ⟨c, w', n, happ⟩ :=
            @applyHeaders_eq χ A ({ s with reqWindow := w, appliedRanges := r :: s.appliedRanges }) r
            (s.rangeAt r).headers
          obtain ⟨h3, hself, hat, hq3⟩ := h.applied hr hrec hq.behind happ
          split
          next happly =>
            rw [happly] at h3
            exact ⟨h3.inOrder, fun hgo => absurd hgo Bool.false_ne_true⟩
          next happly =>
            rw [happly] at h3 ho3
            exact ⟨(InOrder.restarts.rollbackFabricatedHeaderChain ⟨h3.inOrder, ho3⟩).1,
              fun hgo => absurd hgo Bool.false_ne_true⟩
          next happly =>
            rw [happly] at h3 ho3
            exact ⟨(InOrder.restarts.abortHeaderSync ⟨h3.inOrder, ho3⟩).1,
              fun hgo => absurd hgo Bool.false_ne_true⟩
          next happly =>
            rw [happly] at h3 ho3 hself hat hq3
            rw [← hat] at hr
            have hrec3 : _ = true := (congrArg HeaderRange.received hself).trans hrec
            obtain ⟨hw, hq'⟩ := @Working.advanced χ A e _ id r (s.rangeAt r) h3 ho3 hr hrec3
              (congrArg HeaderRange.start hself).symm (congrArg HeaderRange.peer hself).symm
              (congrArg HeaderRange.headers hself).symm hq3
            exact ih hw (ranges.advanceFront ho3) hq'

theorem Working.processReady (h : Working s id) (ho : Owned s) (hq : Quiet A s id) :
    InOrder (s.processReadyHeaderRanges A e turns) := by
  rw [processReadyHeaderRanges, h.sync]
  have happly := @Working.applyReady χ A e s id turns h ho hq
  have hoapply := @Stable.applyReady χ Owned A e s id stable ho turns
  dsimp only
  split
  next s1 heq => exact happly.1.of_fst heq
  next s1 heq =>
    rw [heq] at happly hoapply
    have htop : Working _ id := (happly.2 rfl).topUp (A := A) (e := e) hoapply
    split
    · exact .finishHeaderSync
    · exact htop.inOrder

/-! ## Answers -/

/-- The headers end before the next range and the frontier, unless the range is answered already. -/
def AnswerFits (s : Manager χ) (id : SyncId) (peer : Peer) (headers : List BlockHeader) : Prop :=
  ∀ r ∈ (s.syncAt id).peerRange.lookup peer, (s.rangeAt r).received = false →
    (s.rangeAt r).start + headers.length ≤ (s.syncAt id).nextAssign ∧
      ∀ k ∈ (s.syncAt id).ranges.keys, (s.rangeAt r).start < k → (s.rangeAt r).start + headers.length ≤ k
deriving Decidable

/-- Nobody else has voted against the start of an answered range, nor against that of the range that the peer answers,
unless this is the front and the chain can tell whether the answer extends it. -/
def RivalFree (A : ChainApi χ) (s : Manager χ) (id : SyncId) (peer : Peer) : Prop :=
  ∀ x ∈ (s.syncAt id).ranges.entries,
    ((s.rangeAt x.2).received = true ∨ (s.syncAt id).peerRange.lookup peer = some x.2 ∧
      (x.1 ≠ (s.syncAt id).nextHeight ∨ A.bestHeaderHeight s.chain < x.1 - 1)) → Unopposed s x.2
deriving Decidable

theorem extendsHeight_again
    (hext : s.extendsHeight A headers height = (s', true)) (ht : t.reqWindow = s'.reqWindow) :
    (t.extendsHeight A headers height).2 = true := by
  unfold extendsHeight at hext ⊢
  split at hext
  · rfl
  next header rest =>
    have hcache : t.reqWindow.cache.lookup height = some header.prevBlock := by
      rw [ht]
      cases hc : s.cachedHash A height with
      | mk s1 expected =>
        rw [hc] at hext
        obtain ⟨rfl, hexpected⟩ := Prod.mk.inj hext
        rw [decide_eq_true_iff] at hexpected
        subst hexpected
        rw [cachedHash] at hc
        split at hc
        next hash hhash =>
          obtain ⟨rfl, hsome⟩ := Prod.mk.inj hc
          exact hhash.trans hsome
        next =>
          split at hc
          next hash _ =>
            obtain ⟨rfl, hsome⟩ := Prod.mk.inj hc
            exact (AList.lookup_insert _).trans hsome
          next => cases (Prod.mk.inj hc).2
    simp [cachedHash, hcache]

theorem Working.answered {rng : HeaderRange} {answers : List (RangeId × Peer × Hash)} {w : RequestWindowCache}
    (h : Working s id) (hr : (s.syncAt id).peerRange.lookup peer = some r) (hrec : (s.rangeAt r).received = false)
    (hfits : AnswerFits s id peer rng.headers) (hrival : RivalFree A s id peer) (hstart : rng.start = (s.rangeAt r).start)
    (hpeer : rng.peer = (s.rangeAt r).peer)
    (ht : t = { s with answers := answers, reqWindow := w, rangeAt := update s.rangeAt r rng })
    (hext : (s.rangeAt r).start = (s.syncAt id).nextHeight → ¬ A.bestHeaderHeight s.chain < (s.rangeAt r).start - 1 →
      (t.extendsHeight A rng.headers ((s.rangeAt r).start - 1)).2 = true) :
    Working t id ∧ Quiet A t id := by
  have hself : t.rangeAt r = rng := by
    rw [ht]
    exact update_self ..
  have hother : ∀ r' ≠ r, t.rangeAt r' = s.rangeAt r' := fun r' hne => by
    rw [ht]
    exact update_of_ne hne _ _
  have hat : t.syncAt = s.syncAt := by rw [ht]
  have hunopposed : ∀ r', (t.rangeAt r').start = (s.rangeAt r').start → (t.rangeAt r').peer = (s.rangeAt r').peer →
      Unopposed s r' → Unopposed t r' := by
    intro r' hs hp hun
    rw [Unopposed, hs, hp, ht]
    exact hun
  refine ⟨⟨?_, ?_⟩, fun k r' hk hrec' => ?_⟩
  · rw [ht]
    exact h.sync
  · have hkept := h.kept.setRange hstart fun _ _ => ?_
    · rw [ht]
      exact hkept
    · rw [hstart]
      obtain ⟨hle, hnext⟩ := hfits r hr hrec
      refine ⟨hle, fun k' r' hk' => hnext k' ?_⟩
      exact AList.lookup_isSome.1 (isSome_of_eq_some hk')
  · rw [hat] at hk ⊢
    have hmem : ⟨k, r'⟩ ∈ (s.syncAt id).ranges.entries := AList.mem_lookup_iff.1 hk
    by_cases heq : r' = r
    · subst heq
      obtain rfl := (h.kept.listed k r' hk).1
      rw [hself] at hrec' ⊢
      by_cases hdoubt : (s.rangeAt r').start ≠ (s.syncAt id).nextHeight ∨
          A.bestHeaderHeight s.chain < (s.rangeAt r').start - 1
      · refine .inl (hunopposed r' ?_ ?_ (hrival _ hmem (.inr ⟨hr, hdoubt⟩)))
        · rw [hself, hstart]
        · rw [hself, hpeer]
      · rw [not_or, not_not] at hdoubt
        rw [hstart]
        exact .inr ⟨hdoubt.1, hext hdoubt.1 hdoubt.2⟩
    · rw [hother r' heq] at hrec'
      refine .inl (hunopposed r' ?_ ?_ (hrival _ hmem (.inl hrec')))
      · rw [hother r' heq]
      · rw [hother r' heq]

theorem InOrder.handleParallelHeadersMsg (h : InOrder s) (ho : Owned s)
    (hfits : ∀ id ∈ s.headerSync, AnswerFits s id peer headers)
    (hrival : ∀ id ∈ s.headerSync, RivalFree A s id peer) :
    InOrder (s.handleParallelHeadersMsg A e turns peer headers) := by
  unfold Manager.handleParallelHeadersMsg
  split
  · exact h
  next id hid =>
    have hw := h id hid
    have hfits := hfits id hid
    have hrival := hrival id hid
    dsimp only
    split
    · exact h
    next r hr =>
      have hconfirmed : (s.rangeAt r).confirmed = true := ho.confirmed r (ho.held id peer r hr).1
      split
      · split
        · exact h
        · exact h.dropHeaderPeer ho
      next first rest hfits =>
        have ho1 : Owned { s with answers := (r, peer, A.blockHash first) :: s.answers } := stable (A := A).answer ho hr
        have h1 : InOrder { s with answers := (r, peer, A.blockHash first) :: s.answers } := h.congr rfl rfl rfl
        split
        · exact h1
        next hopen =>
          have hrec : (s.rangeAt r).received = false := by
            rw [hconfirmed] at hopen
            simpa using hopen
          -- the loop starts with the answer in the range
          have hready : ∀ (t : Manager χ) (rng : HeaderRange) (w : RequestWindowCache),
              t = { s with
                answers := (r, peer, A.blockHash first) :: s.answers, reqWindow := w
                rangeAt := update s.rangeAt r rng } →
              rng.headers = first :: rest → rng.start = (s.rangeAt r).start → rng.peer = (s.rangeAt r).peer →
              ((s.rangeAt r).start = (s.syncAt id).nextHeight → ¬ A.bestHeaderHeight s.chain < (s.rangeAt r).start - 1 →
                (t.extendsHeight A rng.headers ((s.rangeAt r).start - 1)).2 = true) →
              Owned t → InOrder (t.processReadyHeaderRanges A e turns) := by
            intro t rng w ht hheaders hstart hpeer hext hot
            obtain ⟨hwt, hqt⟩ := hw.answered hr hrec (hheaders ▸ hfits) hrival hstart hpeer ht hext
            exact hwt.processReady hot hqt
          have hcut := fun s2 (h2 : InOrder s2 ∧ Owned s2) =>
            @Restarts.fastCutOnDoNotExtend χ _ A e s2 (first :: rest) ((s.rangeAt r).start - 1) restarts h2
          split
          next hunknown =>
            split
            · exact hready _ _ s.reqWindow rfl rfl rfl rfl (fun _ hknown => absurd hunknown hknown)
                (stable (A := A).firstAnswer ho1)
            · split
              · exact h1
              · split
                · exact (restarts.vote ⟨h1, ho1⟩).1
                · exact hready _ _ s.reqWindow rfl rfl rfl rfl (fun _ hknown => absurd hunknown hknown)
                    (stable (A := A).setAnswered ho1 rfl fun _ => rfl)
          next hknown =>
            have ho2 := @RangeStable.extendsHeight χ Owned A _ (first :: rest) ((s.rangeAt r).start - 1) ranges ho1
            have h2 : ∀ w, InOrder { s with answers := (r, peer, A.blockHash first) :: s.answers, reqWindow := w } :=
              fun _ => h.congr rfl rfl rfl
            split
            next s2 hext =>
              rw [hext] at ho2
              obtain ⟨w, rfl⟩ := extendsHeight_eq hext
              split
              · have hcut := hcut _ ⟨h2 w, ho2⟩
                split
                next heq => exact hcut.1.of_fst heq
                next heq => exact (restarts.vote ⟨hcut.1.of_fst heq, Netsync.of_fst hcut.2 heq⟩).1
              · exact h2 w
            next s2 hext =>
              rw [hext] at ho2
              obtain ⟨w, rfl⟩ := extendsHeight_eq hext
              split
              · split
                · exact hready _ _ w rfl rfl rfl rfl (fun _ _ => extendsHeight_again hext rfl)
                    (stable (A := A).firstAnswer ho2)
                · split
                  · exact h2 w
                  · split
                    · have hcut := hcut _ ⟨h2 w, ho2⟩
                      split
                      next heq => exact hcut.1.of_fst heq
                      next heq => exact (restarts.vote ⟨hcut.1.of_fst heq, Netsync.of_fst hcut.2 heq⟩).1
                    · exact hready _ _ w rfl rfl rfl rfl (fun _ _ => extendsHeight_again hext rfl)
                        (stable (A := A).setAnswered ho2 rfl fun _ => rfl)
              · exact hready _ _ w rfl rfl rfl rfl (fun _ _ => extendsHeight_again hext rfl)
                  (stable (A := A).setAnswered ho2 rfl fun hc => hc)

/-! ## Events -/

/-- The stall sample hands on the range: it is overdue, and there is an idle peer besides its holder. -/
def HandsOn (e : Env) (s : Manager χ) (id : SyncId) (start : Int) : Prop :=
  ∃ r ∈ (s.syncAt id).ranges.lookup start, (s.rangeAt r).received = false ∧
    headerRangeStallTimeout ≤ e.now - (s.rangeAt r).assignedAt ∧
    ∃ p ∈ (s.syncAt id).peers, p ≠ (s.rangeAt r).peer ∧ (s.syncAt id).peerRange.lookup p = none
deriving Decidable

theorem reissueStale_of_not_handsOn (h : ¬ HandsOn e s id start) : reissueStale A e id s start = s := by
  rw [reissueStale]
  dsimp only
  split
  · rfl
  next r hr =>
    split
    · rfl
    next hdue =>
      split
      · rfl
      next p hp =>
        rw [not_or, Bool.not_eq_true, Nat.not_lt] at hdue
        have hidle := find?_some hp
        simp only [decide_eq_true_eq, isNone_iff_eq_none] at hidle
        exact absurd ⟨r, hr, hdue.1, hdue.2, p, mem_of_find?_eq_some hp, hidle⟩ h

/-- The stall sample finds the front at the frontier, and can ask the first peer for it. -/
def FrontierHandedOut (A : ChainApi χ) (s : Manager χ) (id : SyncId) : Prop :=
  (s.syncAt id).nextHeight = (s.syncAt id).nextAssign ∧ (s.syncAt id).nextHeight ≤ (s.syncAt id).target ∧
    ∃ p ∈ (s.syncAt id).peers.head?, ¬ Stuck A s (s.syncAt id) p
deriving Decidable

theorem InOrder.handleStallSample (h : InOrder s) (ho : Owned s)
    (hfrontier : ∀ id ∈ s.headerSync, ¬ FrontierHandedOut A s id)
    (hstale : ∀ id ∈ s.headerSync, ∀ start ∈ e.starts, ¬ HandsOn e (s.reissueFrontRange A e) id start) :
    InOrder (s.handleStallSample A e) := by
  have hstales : InOrder (s.reissueStaleHeaderRanges A e) := by
    rw [Manager.reissueStaleHeaderRanges]
    split
    · exact h
    next id hid =>
      have hfold : ∀ starts : List Int, (∀ start ∈ starts, ¬ HandsOn e (s.reissueFrontRange A e) id start) →
          starts.foldl (reissueStale A e id) (s.reissueFrontRange A e) = s.reissueFrontRange A e := by
        intro starts hstarts
        induction starts with
        | nil => rfl
        | cons start starts ih =>
          obtain ⟨hno, hrest⟩ := forall_mem_cons.1 hstarts
          rw [foldl_cons, reissueStale_of_not_handsOn hno]
          exact ih hrest
      rw [hfold e.starts (hstale id hid)]
      refine ((h id hid).reissueFront ho fun heq hle p hp => ?_).inOrder
      exact not_not.1 fun hstuck => hfrontier id hid ⟨heq, hle, p, hp, hstuck⟩
  rw [Manager.handleStallSample]
  split
  · exact hstales
  · exact (restarts.maybeFastCutFront ⟨hstales, ranges.reissueStaleHeaderRanges ho⟩).1

/-- What must not happen in an event. -/
def Tidy (A : ChainApi χ) (s : Manager χ) : Env × Event χ → Prop
  | (_, .headers peer headers _) => ∀ id ∈ s.headerSync, AnswerFits s id peer headers ∧ RivalFree A s id peer
  | (e, .stallSample) => ∀ id ∈ s.headerSync, ¬ FrontierHandedOut A s id ∧
    ∀ start ∈ e.starts, ¬ HandsOn e (s.reissueFrontRange A e) id start
  | _ => True

instance (A : ChainApi χ) (s : Manager χ) (a : Env × Event χ) : Decidable (Tidy A s a) := by
  obtain ⟨e, a⟩ := a
  cases a <;> dsimp only [Tidy] <;> infer_instance

theorem InOrder.step {a : Env × Event χ} (h : InOrder s) (ho : Owned s) (ha : Tidy A s a)
    (hstep : s.step A a = some s') : InOrder s' := by
  obtain ⟨e, a⟩ := a
  cases a <;> cases hstep
  case headers peer headers turns =>
    rw [handleHeadersMsg]
    split
    · exact h
    · split
      · exact h.handleParallelHeadersMsg ho (fun id hid => (ha id hid).1) fun id hid => (ha id hid).2
      · split
        next hproc => exact (restarts.processHeaders ⟨h, ho⟩).1.of_fst hproc
        next hproc =>
          have h1 := (restarts.processHeaders ⟨h, ho⟩).1.of_fst hproc
          dsimp only
          split
          · exact h1.congr rfl rfl rfl
          · exact h1
  case newPeer peer syncCandidate => exact (restarts.handleNewPeerMsg ⟨h, ho⟩).1
  case donePeer peer => exact (restarts.handleDonePeerMsg ⟨h, ho⟩).1
  case stallSample => exact h.handleStallSample ho (fun id hid => (ha id hid).1) fun id hid => (ha id hid).2
  case fetchHeaders => exact h.fetchHeaders ho
  case updateSyncPeer => exact (restarts.updateSyncPeer ⟨h, ho⟩).1
  case resetDownloadState => exact (restarts.resetDownloadState ⟨h, ho⟩).1
  case rollbackFabricatedHeaderChain => exact (restarts.rollbackFabricatedHeaderChain ⟨h, ho⟩).1
  case rollbackToForkPoint forkHeight => exact (restarts.rollbackToForkPoint ⟨h, ho⟩).1
  case moved chain lastBlock => exact h.congr rfl rfl rfl

end Manager

/-! ## Runs -/

/-- Ranges start at the front or above, the frontier is not below the front, and the range a peer is bound to is the one
that is listed at its start. -/
structure Bookkept (rangeAt : RangeId → HeaderRange) (hs : HeaderSyncState) : Prop where
  ranges : ∀ k r, hs.ranges.lookup k = some r → hs.nextHeight ≤ (rangeAt r).start
  frontier : hs.nextHeight ≤ hs.nextAssign
  bound : ∀ p r, hs.peerRange.lookup p = some r → hs.ranges.lookup (rangeAt r).start = some r

/-- In every run of tidy events, the running download is kept in order. -/
theorem header_ranges_bookkept {χ : Type} (A : ChainApi χ) {s s' : Manager χ} {events : List (Env × Manager.Event χ)}
    (hidle : Idle s) (hsync : s.headerSync = none) (hok : Along (Manager.step A) (Manager.Tidy A) s events)
    (hr : run (Manager.step A) s events = some s') : ∀ id ∈ s'.headerSync, Bookkept s'.rangeAt (s'.syncAt id) := by
  have hinv : Owned s' ∧ s'.InOrder :=
    run_invariant (I := fun s => Owned s ∧ s.InOrder) (fun _ _ _ h ha hstep => ⟨h.1.step hstep, h.2.step h.1 ha hstep⟩)
      ⟨hidle.owned, .of_none hsync⟩ hok hr
  intro id hid
  have hkept := (hinv.2 id hid).kept
  refine ⟨fun k r hk => ?_, hkept.front, hkept.held⟩
  obtain ⟨hstart, hle, -⟩ := hkept.listed k r hk
  rw [hstart]
  exact hle

/-- The first peer sends one header, and the front stalls. -/
def oneAnswerStalled : List (Env × Manager.Event (List Hash)) :=
  oneAnswer ++ [({ now := 7000, shuffle := id, starts := [2] }, .stallSample)]

theorem header_ranges_bookkept_stalled :
    ∃ s', run (Manager.step listChain) twoPeers oneAnswerStalled = some s' ∧ s'.headerSync = some 0 ∧
      (s'.syncAt 0).nextHeight = 2 ∧ Bookkept s'.rangeAt (s'.syncAt 0) := by
  have hr : run (Manager.step listChain) twoPeers oneAnswerStalled = some _ := rfl
  exact ⟨_, hr, by decide +kernel, by decide +kernel,
    header_ranges_bookkept listChain twoPeers_idle rfl (by decide +kernel) hr 0 (by decide +kernel)⟩

def threePeers : Manager (List Hash) :=
  { twoPeers with
    peerStates := (∅ : AList fun _ : Peer => Bool).insert 3 true |>.insert 2 true |>.insert 1 true
    lastBlock := fun _ => 4000
    host := fun _ => "" }

def nobodyAnswers : List (Env × Manager.Event (List Hash)) :=
  [({ now := 0, shuffle := id }, .fetchHeaders), ({ now := 6000, shuffle := id, starts := [2001] }, .stallSample)]

/-- The second range is handed on to the third peer, and the second peer stays bound to the range it had. -/
theorem header_range_left_bound :
    ∃ s', run (Manager.step listChain) threePeers nobodyAnswers = some s' ∧ s'.headerSync = some 0 ∧
      (s'.syncAt 0).peerRange.lookup 2 = some 1 ∧ (s'.rangeAt 1).start = 2001 ∧
      (s'.syncAt 0).ranges.lookup 2001 = some 3 ∧ ¬ Bookkept s'.rangeAt (s'.syncAt 0) := by
  refine ⟨_, rfl, by decide +kernel, by decide +kernel, by decide +kernel, by decide +kernel, fun h => ?_⟩
  have hbound := h.bound 2 1 (by decide +kernel)
  revert hbound
  decide +kernel

end IniNode.Netsync
