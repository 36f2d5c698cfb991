import Pequin.Framework.Run
import Pequin.Proof.SnapshotExecution

/-!
# Queries execute on materialized snapshots

A transaction that is said to be a genesis transaction wakes a query, and so does one that is found while a timestamp
is being translated.
-/

namespace Pequin.QueryServer

open Function List Option QueryServer.Server QueryServer.TxnState

variable {ts : Nat} {b : Action} {res : Server × List Action} {x : Txn}

variable {p : Params} {t t' : TxnState} {pend pend' : Action → Prop} {r : RetryId} {ss : MergedSnapshot}
  {md md' : QueryMetaData} {m m' : MissingTxns} {q : QueryId} {s s' : Server}

/-! ## Waking queries -/

theorem Inv.setMissing (h : Inv p s pend) (hm : s.queryMissingTxns r = some m) (hlock : s.lockedMissing r = false)
    (hempty : m.isEmpty = true → m'.isEmpty = true)
    (htxns : ∀ d ∈ m.missingTxns, d ∈ m'.missingTxns ∨ d ∈ s.txns.materialized)
    (hts : ∀ ts ∈ m.missingTs, ts ∈ m'.missingTs ∨ ∃ d b, pend' (.translateTS ts d b r)) (hold : ∀ a, pend a → pend' a)
    (hnew : ∀ a, pend' a → pend a ∨ a.Sound p s.txns ∧ (a.woken = none ∨ a.woken = some r))
    (hwake : ∀ d b, pend' (.wakeQuery d b r) → pend (.wakeQuery d b r) ∨ m'.isEmpty = true) :
    Inv p (s.setMissing r (some m')) pend' := by
  obtain ⟨q, v⟩ := r
  cases hmd : s.queryMetaData q with
  | none => cases hm.symm.trans (((h.queries q).absent hmd).1 v)
  | some md =>
    obtain ⟨hnot, hpres⟩ := (h.queries q).present md hmd
    obtain rfl : v = md.retryVersion := hpres.versions v m hm
    have hun : md.unchecked = none := by simpa [lockedMissing, hmd] using hlock
    have hself : (s.setMissing (q, md.retryVersion) (some m')).queryMissingTxns (q, md.retryVersion) = some m' :=
      update_self ..
    have hother : ∀ r', r' ≠ (q, md.retryVersion) →
        (s.setMissing (q, md.retryVersion) (some m')).queryMissingTxns r' = s.queryMissingTxns r' :=
      fun r' hr' => update_of_ne hr' ..
    have hpend : ∀ a r', a.woken = some r' → r' ≠ (q, md.retryVersion) → (pend' a ↔ pend a) := by
      refine fun a r' ha hr' => ⟨fun hp => (hnew a hp).resolve_right fun hsound => ?_, hold a⟩
      rcases hsound.2 with hnone | hsome
      · cases ha.symm.trans hnone
      · exact hr' (some.inj (ha.symm.trans hsome))
    refine h.query (q := q) (.refl _) h.settled (fun _ _ => rfl)
      (fun q' v' hq' => hother _ fun heq => hq' (congrArg Prod.fst heq)) (fun _ _ => Iff.rfl)
      (.of_present hmd hnot ?_) (fun x hx => .inl hx) (fun a hp => (hnew a hp).imp_right And.left)
      fun a r' ha hr' => hpend a r' ha fun heq => hr' (heq ▸ rfl)
    refine hpres.next rfl (fun v hv => hother _ fun heq => hv (congrArg Prod.snd heq)) hpres.unchecked hpres.hasQuery
      (fun hw => ?_) (fun a v ha hv => (hpend a (q, v) ha fun heq => hv (congrArg Prod.snd heq)).mp)
      (fun a _ _ => ⟨by rw [hself]; rfl, hun⟩) (fun d b m₁ hp hm₁ => ?_)
    · obtain ⟨ss, m₁, hss, hm₁, hacc⟩ := hpres.accounted hw
      cases hm.symm.trans hm₁
      exact ⟨ss, m', hss, hself, hacc.moves ⟨.refl _, fun _ h => .inl h, htxns, hts, fun _ _ _ h => .inl (hold _ h),
        fun _ h => .inl h, fun _ h => .inl h⟩ (.inl fun hun => ⟨hun, rfl⟩)⟩
    · cases hself.symm.trans hm₁
      exact (hwake d b hp).elim (fun hp => hempty (hpres.empty d b m hp hm)) id

variable {P : Action → Prop} {a : Server × List Action} {d : Digest} {isAbort : Bool}

theorem Inv.addAction {as : List Action} (h : Inv p a.1 fun b => P b ∨ b ∈ a.2)
    (hm : a.1.queryMissingTxns r = some m) (hlock : a.1.lockedMissing r = false)
    (hempty : m.isEmpty = true → m'.isEmpty = true)
    (htxns : ∀ d ∈ m.missingTxns, d ∈ m'.missingTxns ∨ d ∈ a.1.txns.materialized)
    (hts : ∀ ts ∈ m.missingTs, ts ∈ m'.missingTs ∨ ∃ d c, b = .translateTS ts d c r)
    (has : ∀ c, c ∈ as ↔ c ∈ a.2 ∨ c = b) (hb : b.Sound p a.1.txns ∧ (b.woken = none ∨ b.woken = some r))
    (hwake : ∀ d c, b = .wakeQuery d c r → m'.isEmpty = true) :
    Inv p (a.1.setMissing r (some m')) fun b => P b ∨ b ∈ as := by
  have hnew : ∀ c, P c ∨ c ∈ as → (P c ∨ c ∈ a.2) ∨ c = b := by
    rintro c (hc | hc)
    · exact .inl (.inl hc)
    · exact ((has c).mp hc).imp_left .inr
  refine h.setMissing hm hlock hempty htxns (fun ts hmem => (hts ts hmem).imp_right ?_)
    (fun c hc => hc.imp_right fun hc => (has c).mpr (.inl hc)) (fun c hc => ?_) fun d c hc => ?_
  · rintro ⟨d, c, rfl⟩
    exact ⟨d, c, .inr ((has _).mpr (.inr rfl))⟩
  · rcases hnew c hc with hc | rfl
    · exact .inl hc
    · exact .inr hb
  · exact (hnew _ hc).imp_right fun heq => hwake d c heq.symm

theorem Inv.updateWaiting (h : Inv p a.1 fun b => P b ∨ b ∈ a.2) (hlock : a.1.lockedMissing r = false)
    (hmat : d ∈ a.1.txns.materialized) (hab : isAbort = true → d ∈ a.1.txns.aborted) :
    Inv p (Server.updateWaiting d isAbort a r).1 fun b => P b ∨ b ∈ (Server.updateWaiting d isAbort a r).2 := by
  unfold Server.updateWaiting
  split
  · exact h
  rename_i m hm
  have hempty : m.isEmpty = true →
      ({ m with missingTxns := m.missingTxns.filter (· ≠ d) } : MissingTxns).isEmpty = true := by
    simp only [MissingTxns.isEmpty_iff]
    rintro ⟨hmt, hms⟩
    exact ⟨by rw [hmt]; rfl, hms⟩
  have htxns : ∀ d' ∈ m.missingTxns, d' ∈ m.missingTxns.filter (· ≠ d) ∨ d' ∈ a.1.txns.materialized := by
    intro d' hd'
    by_cases heq : d' = d
    · exact .inr (heq ▸ hmat)
    · exact .inl (mem_filter.mpr ⟨hd', by simpa using heq⟩)
  simp only
  split
  · rename_i hready
    exact h.addAction (b := .wakeQuery d isAbort r) hm hlock hempty htxns (fun _ h => .inl h) (by simp) ⟨hab, .inr rfl⟩
      fun _ _ _ => (Bool.and_eq_true_iff.mp hready).2
  · split
    · rename_i hisAbort
      exact h.addAction (b := .removeTxn d r) hm hlock hempty htxns (fun _ h => .inl h) (by simp [or_comm])
        ⟨hab hisAbort, .inl rfl⟩ nofun
    · exact h.setMissing hm hlock hempty htxns (fun _ h => .inl h) (fun _ h => h) (fun _ h => .inl h)
        fun _ _ h => .inl h

theorem Inv.updateWaitingTS (h : Inv p a.1 fun b => P b ∨ b ∈ a.2) (hlock : a.1.lockedMissing r = false)
    (htx : a.1.txns.tsToTx ts = some d) (hab : isAbort = true → d ∈ a.1.txns.aborted) :
    Inv p (Server.updateWaitingTS ts d isAbort a r).1 fun b => P b ∨
      b ∈ (Server.updateWaitingTS ts d isAbort a r).2 := by
  unfold Server.updateWaitingTS
  split
  · exact h
  rename_i m hm
  have hempty : m.isEmpty = true →
      ({ m with missingTs := m.missingTs.filter (· ≠ ts) } : MissingTxns).isEmpty = true := by
    simp only [MissingTxns.isEmpty_iff]
    rintro ⟨hmt, hms⟩
    exact ⟨hmt, by rw [hms]; rfl⟩
  have hfilter : ∀ ts' ∈ m.missingTs, ts' = ts ∨ ts' ∈ m.missingTs.filter (· ≠ ts) := by
    intro ts' hts'
    by_cases heq : ts' = ts
    · exact .inl heq
    · exact .inr (mem_filter.mpr ⟨hts', by simpa using heq⟩)
  split
  · refine h.addAction (b := .translateTS ts d isAbort r) hm hlock hempty (fun _ h => .inl h) (fun ts' hts' => ?_)
      (by simp) ⟨⟨htx, hab⟩, .inr rfl⟩ nofun
    rcases hfilter ts' hts' with rfl | hmem
    · exact .inr ⟨d, isAbort, rfl⟩
    · exact .inl hmem
  · rename_i hts
    refine h.setMissing hm hlock hempty (fun _ h => .inl h) (fun ts' hts' => .inl ?_) (fun _ h => h)
      (fun _ h => .inl h) fun _ _ h => .inl h
    rcases hfilter ts' hts' with rfl | hmem
    · exact absurd hts' hts
    · exact hmem

theorem Inv.foldl {f : Server × List Action → RetryId → Server × List Action}
    (hf : ∀ a r, Updates a s → Updates (f a r) s)
    (hstep : ∀ a r, Updates a s → s.lockedMissing r = false → (Inv p a.1 fun b => P b ∨ b ∈ a.2) →
      Inv p (f a r).1 fun b => P b ∨ b ∈ (f a r).2)
    {rs : List RetryId} (hlock : ∀ r ∈ rs, s.lockedMissing r = false) (hupd : Updates a s)
    (h : Inv p a.1 fun b => P b ∨ b ∈ a.2) : Inv p (rs.foldl f a).1 fun b => P b ∨ b ∈ (rs.foldl f a).2 := by
  induction rs generalizing a with
  | nil => exact h
  | cons r rs ih =>
    exact ih (fun r' hr' => hlock r' (mem_cons_of_mem r hr')) (hf a r hupd)
      (hstep a r hupd (hlock r mem_cons_self) h)

theorem Server.Updates.lockedMissing (h : Server.Updates a s) : a.1.lockedMissing r = s.lockedMissing r := by
  rw [Server.lockedMissing, Server.lockedMissing, h.queryMetaData]

theorem Inv.next {s₁ : Server} (h : Inv p s fun a => a = b ∨ P a) (hb : b.woken = none)
    (hframe : Frames p s s₁) : Inv p s₁ P :=
  h.txns hframe.grows hframe.settled hframe.queryMetaData hframe.queryMissingTxns hframe.alreadyDeleted
    hframe.executions
    (fun _ ha => .inl (.inr ha)) fun _ ha => ha.elim (fun heq => .inr (heq ▸ hb)) .inl

theorem Inv.forget (h : Inv p s fun a => a = b ∨ P a) (hb : b.woken = none) : Inv p s P :=
  h.next hb ⟨rfl, rfl, rfl, rfl, .refl _, h.settled⟩

theorem Inv.updateWaitingQueries (h : Inv p s fun a => a = .updateWaitingQueries d isAbort ∨ P a)
    (hlock : (s.waitingQueries d).any s.lockedMissing = false)
    (hres : res = (s.waitingQueries d).foldl (Server.updateWaiting d isAbort)
      ({ s with waitingQueries := update s.waitingQueries d [] }, [])) : Inv p res.1 fun b => P b ∨ b ∈ res.2 := by
  subst hres
  obtain ⟨hmat, hab⟩ := h.sound _ (.inl rfl)
  have hstart : Inv p { s with waitingQueries := update s.waitingQueries d [] } P :=
    h.next rfl ⟨rfl, rfl, rfl, rfl, .refl _, h.settled⟩
  have hlocks : ∀ r ∈ s.waitingQueries d, s.lockedMissing r = false := by simpa using hlock
  refine .foldl (fun _ r hu => updates_updateWaiting hu d isAbort r) (fun a r hu hl ha => ?_) hlocks
    ⟨rfl, rfl, rfl, rfl⟩ (by simpa using hstart)
  exact ha.updateWaiting (hu.lockedMissing.trans hl) (hu.txns ▸ hmat) (hu.txns ▸ hab)

theorem Inv.updateWaitingQueriesTS (h : Inv p s fun a => a = .updateWaitingQueriesTS ts d isAbort ∨ P a)
    (hlock : (s.waitingQueriesTS ts).any s.lockedMissing = false)
    (hres : res = (s.waitingQueriesTS ts).foldl (Server.updateWaitingTS ts d isAbort)
      ({ s with waitingQueriesTS := update s.waitingQueriesTS ts [] }, [])) : Inv p res.1 fun b => P b ∨ b ∈ res.2 := by
  subst hres
  obtain ⟨htx, hab⟩ := h.sound _ (.inl rfl)
  have hstart : Inv p { s with waitingQueriesTS := update s.waitingQueriesTS ts [] } P :=
    h.next rfl ⟨rfl, rfl, rfl, rfl, .refl _, h.settled⟩
  have hlocks : ∀ r ∈ s.waitingQueriesTS ts, s.lockedMissing r = false := by simpa using hlock
  refine .foldl (fun _ r hu => updates_updateWaitingTS hu ts d isAbort r) (fun a r hu hl ha => ?_) hlocks
    ⟨rfl, rfl, rfl, rfl⟩ (by simpa using hstart)
  exact ha.updateWaitingTS (hu.lockedMissing.trans hl) (hu.txns ▸ htx) (hu.txns ▸ hab)

/-! ## Queries that go on -/

theorem Server.unchecked_of_unlocked (hmd : s.queryMetaData q = some md) (hlock : s.locked q = false) :
    md.unchecked = none := by
  simpa [locked, hmd] using hlock

theorem Inv.drop (h : Inv p s fun a => a = b ∨ P a) (hb : b.woken = some r)
    (hidle : s.waitingQuery r = none) : Inv p s P := by
  refine h.query (q := r.1) (.refl _) h.settled (fun _ _ => rfl) (fun _ _ _ => rfl) (fun _ _ => Iff.rfl) ?_
    (fun _ hx => .inl hx) (fun _ hp => .inl (.inr hp)) (fun a r' ha hr' => ⟨.inr, fun hp => hp.resolve_left ?_⟩)
  · refine ⟨fun md hmd => ?_, fun hmd => ?_⟩
    · obtain ⟨hnot, hpres⟩ := (h.queries r.1).present md hmd
      refine ⟨hnot, hpres.next rfl (fun _ _ => rfl) hpres.unchecked hpres.hasQuery (fun hw => ?_)
        (fun _ _ _ _ hp => .inr hp) (fun a hp ha => ?_) fun d b m hp => hpres.empty d b m (.inr hp)⟩
      · obtain ⟨ss, m, hss, hm, hacc⟩ := hpres.accounted hw
        refine ⟨ss, m, hss, hm, hacc.moves ⟨.refl _, fun _ h => .inl h, fun _ h => .inl h, fun _ h => .inl h,
          fun ts d b' hp => .inl (hp.resolve_left ?_), fun _ h => .inl h, fun _ h => .inl h⟩
            (.inl fun hun => ⟨hun, rfl⟩)⟩
        rintro rfl
        have hr : (r.1, md.retryVersion) = r := some.inj hb
        have hsome := waitingQuery_eq_some.mpr ⟨hmd, hw, congrArg Prod.snd hr⟩
        cases hidle.symm.trans hsome
      · exact ((hpres.woken a _ (.inr hp) ha).resolve_left (by omega)).2
    · obtain ⟨hnone, hwoken⟩ := (h.queries r.1).absent hmd
      exact ⟨hnone, fun a v hp => hwoken a v (.inr hp)⟩
  · rintro rfl
    exact hr' (congrArg Prod.fst (some.inj (ha.symm.trans hb)))

theorem Moves.erase (hab : isAbort = true → d ∈ t.aborted) : Moves t t pend pend r md
    { md with mergedTxns := if isAbort then md.mergedTxns.filter (· ≠ d) else md.mergedTxns } m m :=
  ⟨.refl _, mem_erase_aborted hab, fun _ h => .inl h, fun _ h => .inl h, fun _ _ _ h => .inl h, fun _ h => .inl h,
    fun _ h => .inl h⟩

theorem Inv.removeTxn (h : Inv p s fun a => a = .removeTxn d r ∨ P a) (hmd : s.waitingQuery r = some md) :
    Inv p (s.setQueryMetaData r.1 { md with mergedTxns := md.mergedTxns.filter (· ≠ d) }) P := by
  have hab : d ∈ s.txns.aborted := h.sound _ (.inl rfl)
  have h : Inv p s P := h.forget rfl
  obtain ⟨hmd, -, -⟩ := waitingQuery_eq_some.mp hmd
  obtain ⟨hnot, hpres⟩ := (h.queries r.1).present md hmd
  refine h.setQueryMetaData rfl rfl (fun _ _ _ => rfl) rfl (fun _ hx => .inl hx) hnot
    (hpres.next rfl (fun _ _ => rfl) hpres.unchecked hpres.hasQuery (fun hw => ?_) (fun _ _ _ _ hp => hp)
      (fun a hp ha => ((hpres.woken a _ hp ha).resolve_left (by omega)).2) hpres.empty)
  obtain ⟨ss, m, hss, hm, hacc⟩ := hpres.accounted hw
  have hmoves : Moves s.txns s.txns P P (r.1, md.retryVersion) md
      { md with mergedTxns := if true then md.mergedTxns.filter (· ≠ d) else md.mergedTxns } m m := .erase fun _ => hab
  exact ⟨ss, m, hss, hm, hacc.moves hmoves (.inl fun hun => ⟨hun, rfl⟩)⟩

theorem Inv.wakeQuery (h : Inv p s fun a => a = .wakeQuery d isAbort r ∨ P a) (hone : ∀ a, P a → a.woken ≠ some r)
    (hlock : s.locked r.1 = false) (hmd : s.waitingQuery r = some md) : Inv p (s.handleSyncCallback r.1
      (if isAbort then { md with mergedTxns := md.mergedTxns.filter (· ≠ d) } else md)) P := by
  have hab : isAbort = true → d ∈ s.txns.aborted := h.sound _ (.inl rfl)
  obtain ⟨q, v⟩ := r
  obtain ⟨hmd, hw, hv⟩ := waitingQuery_eq_some.mp hmd
  obtain rfl : md.retryVersion = v := hv
  obtain ⟨hnot, hpres⟩ := (h.queries q).present md hmd
  have hun := unchecked_of_unlocked hmd hlock
  obtain ⟨ss, m, hss, hm, hacc⟩ := hpres.accounted hw
  have hempty := hpres.empty d isAbort m (.inl rfl) hm
  have hmd' : (if isAbort then { md with mergedTxns := md.mergedTxns.filter (· ≠ d) } else md) =
      { md with mergedTxns := if isAbort then md.mergedTxns.filter (· ≠ d) else md.mergedTxns } := by
    cases isAbort <;> rfl
  have hacc' := hacc.moves (.erase hab) (.inl fun hun => ⟨hun, rfl⟩)
  have hmat := hacc'.materialized h.settled hun hempty fun ts d' b hp => by
      rcases hp with heq | hp
      · cases heq
      · exact hone _ hp rfl
  rw [hmd']
  refine h.execute hmd ⟨rfl, rfl, rfl, rfl, .refl _, h.settled⟩ (fun _ _ => rfl) rfl hun hss hmat
    (fun _ hp => .inl (.inr hp)) (fun a r' ha hr' => ⟨.inr, fun hp => hp.resolve_left ?_⟩) hone
  rintro rfl
  exact hr' (some.inj ha).symm

theorem Moves.resolveTxn (r : RetryId) (htx : t.tsToTx ts = some d) (hab : isAbort = true → d ∈ t.aborted) :
    Moves t t (fun a => a = .translateTS ts d isAbort r ∨ P a) P r md (Server.resolveTxn d isAbort md) m
      { m with missingTxns := d :: m.missingTxns } := by
  have hkept : ∀ d' ∈ md.mergedTxns, d' ∈ (Server.resolveTxn d isAbort md).mergedTxns ∨ d' ∈ t.aborted := by
    intro d' hd'
    cases isAbort with
    | true => exact mem_erase_aborted (b := true) hab d' hd'
    | false => exact .inl (mem_cons_of_mem d hd')
  have htracked : Tracked t (Server.resolveTxn d isAbort md).mergedTxns
      { m with missingTxns := d :: m.missingTxns } d := by
    refine ⟨.inl mem_cons_self, ?_⟩
    cases isAbort with
    | true => exact .inr (hab rfl)
    | false => exact .inl mem_cons_self
  refine ⟨.refl _, hkept, fun d' hd' => .inl (mem_cons_of_mem d hd'), fun _ h => .inl h, fun ts' d' b hp => ?_,
    fun _ h => .inl h, fun _ h => .inl h⟩
  rcases hp with heq | hp
  · cases heq
    exact .inr ⟨htx, htracked⟩
  · exact .inl hp

theorem Inv.translateTS (h : Inv p s fun a => a = .translateTS ts d isAbort r ∨ P a)
    (hone : ∀ a, P a → a.woken ≠ some r) (hlock : s.locked r.1 = false) : Spawns p s (s.translateTS d isAbort r) P := by
  unfold Server.translateTS
  split
  · rename_i hidle
    exact (h.drop rfl hidle).spawns rfl
  · rename_i md hmd
    obtain ⟨htx, hab⟩ := h.sound _ (.inl rfl)
    obtain ⟨q, v⟩ := r
    obtain ⟨hmd, hw, hv⟩ := waitingQuery_eq_some.mp hmd
    obtain rfl : md.retryVersion = v := hv
    obtain ⟨hnot, hpres⟩ := (h.queries q).present md hmd
    have hun := unchecked_of_unlocked hmd hlock
    obtain ⟨ss, m, hss, hm, hacc⟩ := hpres.accounted hw
    simp only [hm]
    have hc := checkPresence_checks (q, md.retryVersion) d ⟨s, Server.resolveTxn d isAbort md, m⟩
    generalize (checkPresence (q, md.retryVersion) d ⟨s, Server.resolveTxn d isAbort md, m⟩).1 = l at hc ⊢
    generalize (checkPresence (q, md.retryVersion) d ⟨s, Server.resolveTxn d isAbort md, m⟩).2 = ready at hc ⊢
    obtain ⟨new, hthreads, hnew⟩ := hc.newThreads h.settled
    have hnew' : ∀ a ∈ new.flatten, a.woken = none := fun a ha => (hnew a ha).2
    have hacc' := (hacc.moves (.resolveTxn (q, md.retryVersion) htx hab) (.inl fun hsome => ⟨hsome, rfl⟩)).moves
      (hc.moves.mono fun a hp => (Or.inl hp : P a ∨ a ∈ new.flatten))
        (.inl fun hsome => by rw [hc.md]; exact ⟨hsome, rfl⟩)
    have hl : l.md = { md with mergedTxns := l.md.mergedTxns, unchecked := l.md.unchecked } := by
      rw [hc.md]
      rfl
    have hone' : ∀ a, P a ∨ a ∈ new.flatten → a.woken ≠ some (q, md.retryVersion) :=
      fun a hp ha => hp.elim (fun hp => hone a hp ha) fun hmem => by simp [hnew' a hmem] at ha
    have hsound : ∀ a, P a ∨ a ∈ new.flatten →
        (a = .translateTS ts d isAbort (q, md.retryVersion) ∨ P a) ∨ a.Sound p l.server.txns :=
      fun a hp => hp.elim (fun hp => .inl (.inr hp)) fun hmem => .inr (hnew a hmem).1
    have hpend : ∀ a r, a.woken = some r → r ≠ (q, md.retryVersion) →
        ((P a ∨ a ∈ new.flatten) ↔ a = .translateTS ts d isAbort (q, md.retryVersion) ∨ P a) := by
      intro a r ha hr
      rw [or_new_iff hnew' ha]
      refine ⟨.inr, fun hp => hp.resolve_left ?_⟩
      rintro rfl
      exact hr (some.inj ha).symm
    refine ⟨new, ?_, ?_⟩
    · split <;> exact hthreads
    split
    · rename_i hready
      have hempty := (Bool.and_eq_true_iff.mp hready).1
      have hlun : l.md.unchecked = none := by
        rw [hc.md]
        exact hun
      have hmat := hacc'.materialized (hc.settled h.settled) hlun hempty fun ts' d' b hp => hone' _ hp rfl
      refine h.execute hmd ⟨hc.queryMetaData, rfl, hc.alreadyDeleted, hc.executions, hc.grows, hc.settled h.settled⟩
        (fun r hr => ?_) (by rw [hl]) hlun (by rw [hl]; exact hss) hmat hsound hpend hone'
      exact (update_of_ne hr ..).trans (congrFun hc.queryMissingTxns r)
    · exact h.store hmd hss hw (hc.frames h.settled) hl hacc' hsound hpend hone'

/-- What a replica says of a transaction is true: a genesis transaction is materialized here, and an unsigned one has
the digest. -/
def Supplied (p : Params) (t : TxnState) (d : Digest) (info : TxnInfo) : Prop :=
  (∀ y ∈ info.commitProof, y.1.clientId = 0 → y.1.clientSeqNum = 0 →
    d ∈ t.materialized ∧ ∀ ts ∈ mergeTimestampId y.1.timestamp, t.tsToTx ts = some d) ∧
  (p.signClientProposals = false → ∀ x ∈ info.p1, p.transactionDigest x = d)
  deriving Decidable

/-! ## Commits and aborts -/

section

variable (h : Inv p s pend)
include h

theorem Inv.cleanQuery (hstep : s.cleanQuery q = some s') : Inv p s' pend := by
  unfold Server.cleanQuery at hstep
  split at hstep
  · cases hstep
    exact h
  rename_i md hmd
  split at hstep
  · cases hstep
  cases hstep
  obtain ⟨-, hpres⟩ := (h.queries q).present md hmd
  refine h.query (q := q) (.refl _) h.settled (fun q' hq' => update_of_ne hq' ..)
    (fun q' v hq' => update_of_ne (fun heq => hq' (congrArg Prod.fst heq)) ..) (fun q' hq' => ?_) ⟨?_, ?_⟩
    (fun _ hx => .inl hx) (fun _ hp => .inl hp) fun _ _ _ _ => Iff.rfl
  · simp [hq']
  · intro md' hmd'
    have hnone : update s.queryMetaData q none q = none := update_self ..
    cases hnone.symm.trans hmd'
  · intro _
    refine ⟨fun v => ?_, fun _ _ _ _ => mem_cons_self⟩
    by_cases hv : v = md.retryVersion
    · subst hv
      exact update_self ..
    · refine (update_of_ne (fun heq => hv (congrArg Prod.snd heq)) ..).trans ?_
      cases hm : s.queryMissingTxns (q, v) with
      | none => rfl
      | some m => exact absurd (hpres.versions v m hm) hv

theorem Inv.cleanQueries (hstep : s.cleanQueries x = some s') : Inv p s' pend := by
  unfold Server.cleanQueries at hstep
  split at hstep
  · cases hstep
    exact h
  · rename_i n _
    simp only [Run.foldlM_eq_exec] at hstep
    refine Run.exec_invariant (P := fun s => Inv p s pend) (fun h hst => h.cleanQuery hst) ?_ hstep
    exact h.txns (.refl _) h.settled rfl rfl rfl rfl (fun _ hp => .inl hp) fun _ hp => .inl hp

theorem Inv.setTxns (hg : s.txns.Grows t) (hs : t.Settled p) : Inv p { s with txns := t } pend :=
  h.txns hg hs rfl rfl rfl rfl (fun _ hp => .inl hp) fun _ hp => .inl hp

theorem Inv.addThread {actions : List Action} (hg : s.txns.Grows t) (hs : t.Settled p)
    (hnew : ∀ a ∈ actions, a.Sound p t ∧ a.woken = none) :
    Inv p (addThread { s with txns := t } actions) fun a => pend a ∨ a ∈ [actions].flatten :=
  h.txns hg hs rfl rfl rfl rfl
    (fun a hp => hp.imp_right fun ha => hnew a (by simpa using ha)) fun _ hp => .inl (.inl hp)

theorem Inv.commit (hdig : p.transactionDigest x = d) (hstep : s.commit d x = some s') : Spawns p s s' pend := by
  unfold Server.commit at hstep
  split at hstep
  · cases hstep
    exact h.spawns rfl
  have hgrows : s.txns.Grows (clean { s.txns with committed := s.txns.committed ++ [d] } false d) :=
    ⟨fun _ h => h, fun _ h => h, fun _ _ h => h, fun _ h => .inl h⟩
  have hsettled : (clean { s.txns with committed := s.txns.committed ++ [d] } false d).Settled p :=
    settled_clean nofun ⟨h.settled.ongoing, h.settled.materialized⟩
  refine ⟨[[.applyTableWrites d x]], (deletes_cleanQueries hstep).threads, ?_⟩
  refine (h.addThread hgrows hsettled fun a ha => ?_).cleanQueries hstep
  cases mem_singleton.mp ha
  exact ⟨hdig, rfl⟩

theorem Inv.abort
    (hts : p.optimisticTxID = true → ∀ ts, mergeTimestampId x.timestamp = some ts → s.txns.tsToTx ts = some d)
    (hstep : s.abort p d x = some s') : Spawns p s s' pend := by
  obtain ⟨s₁, hclean, hstep⟩ := bind_eq_some_iff.mp hstep
  obtain ⟨actions, hactions, rfl⟩ := map_eq_some_iff.mp hstep
  have hdel := deletes_cleanQueries hclean
  have hmem : d ∈ s.txns.aborted ++ [d] := by simp
  have hgrows : s.txns.Grows (clean { s.txns with aborted := s.txns.aborted ++ [d] } true d) :=
    grows_aborted.trans (grows_clean fun _ => hmem)
  have hsettled : (clean { s.txns with aborted := s.txns.aborted ++ [d] } true d).Settled p :=
    settled_clean (fun _ => hmem) (settled_aborted h.settled)
  have h₀ : Inv p { s with txns := clean { s.txns with aborted := s.txns.aborted ++ [d] } true d } pend :=
    h.setTxns hgrows hsettled
  have h₁ : Inv p s₁ pend := h₀.cleanQueries hclean
  have hmem₁ : d ∈ s₁.txns.aborted := by
    rw [hdel.txns]
    exact hmem
  have hgrows₁ : s₁.txns.Grows { s₁.txns with materialized := s₁.txns.materialized ++ [d] } :=
    ⟨fun _ h => h, fun _ h => mem_append_left _ h, fun _ _ h => h, fun _ h => .inl h⟩
  refine ⟨[actions], congrArg (· ++ [actions]) hdel.threads, h₁.addThread hgrows₁ (h₁.settled.of_grows hgrows₁
    (fun _ _ h => .inl h) fun d' hd' => ?_) (checkWaitingQueries_spec hactions (by simp) (fun _ => hmem₁) ?_)⟩
  · rcases mem_append.mp hd' with hd' | hd'
    · exact .inl hd'
    · cases mem_singleton.mp hd'
      exact .inr (.inl hmem₁)
  · rw [hdel.txns]
    exact hts

theorem Inv.handleWriteback {decision : CommitDecision} (hdig : p.transactionDigest x = d)
    (hstep : s.handleWriteback p d x decision = some s') : Spawns p s s' pend := by
  unfold Server.handleWriteback at hstep
  split at hstep
  · cases hstep
    exact Inv.spawns (h.setTxns (grows_clean nofun) (settled_clean nofun h.settled)) rfl
  · obtain ⟨t, hreg, hstep⟩ := bind_eq_some_iff.mp hstep
    obtain ⟨hgrows, -, hts⟩ := registerTxTS_spec hreg
    have h₁ := h.setTxns hgrows (settled_registerTxTS hreg h.settled)
    cases decision with
    | commit => exact h₁.commit hdig hstep
    | abort => exact h₁.abort hts hstep

/-! ## Proposals and supplied transactions -/

theorem Inv.p1MetaData (hdig : p.transactionDigest x = d) (new : List (List Action))
    (hnew : ∀ as ∈ new, as = [.applyTableWrites d x]) (hs' : ∃ p1 sup, s' =
      { s with txns := { s.txns with p1MetaData := p1, suppliedSync := sup }, threads := s.threads ++ new }) :
    Spawns p s s' pend := by
  obtain ⟨p1, sup, rfl⟩ := hs'
  refine ⟨new, rfl, h.txns ⟨fun _ h => h, fun _ h => h, fun _ _ h => h, fun _ h => .inl h⟩
    ⟨h.settled.ongoing, h.settled.materialized⟩ rfl rfl rfl rfl (fun a hp => hp.imp_right fun ha => ?_)
    fun _ hp => .inl (.inl hp)⟩
  obtain ⟨as, has, ha⟩ := mem_flatten.mp ha
  cases hnew as has
  cases mem_singleton.mp ha
  exact ⟨hdig, rfl⟩

theorem Inv.handlePhase1CB {res : Result} {force : Bool}
    (hstep : s.handlePhase1CB d res force = some s') : Spawns p s s' pend := by
  unfold Server.handlePhase1CB at hstep
  split at hstep
  · cases hstep
    exact h.spawns rfl
  rename_i x hx
  have hdig : p.transactionDigest x = d := h.settled.ongoing d x hx
  split at hstep
  · cases hstep
    -- the writes of the transaction are purged before it is marked as aborted
    have hgrows : s.txns.Grows { s.txns.clean true d with
        aborted := s.txns.aborted ++ [d], p1MetaData := update s.txns.p1MetaData d none } := by
      refine ⟨fun _ h => mem_append_left _ h, fun _ h => h, fun _ _ h => h, fun w hw => ?_⟩
      by_cases hd : w.1 = d
      · exact .inr (by simp [hd])
      · exact .inl (mem_filter.mpr ⟨hw, by simpa using hd⟩)
    exact (h.setTxns hgrows (h.settled.of_grows hgrows
      (fun _ _ h => .inl (clean_ongoing (b := true) h)) fun _ h => .inl h)).spawns rfl
  · simp only [some.injEq] at hstep
    subst hstep
    by_cases hprep : (decide (res = .commit) || decide (res = .wait)) = true
    · simp only [if_pos hprep]
      split
      · exact h.p1MetaData hdig [[.applyTableWrites d x], [.applyTableWrites d x]] (by simp)
          ⟨_, _, by rw [append_cons]; rfl⟩
      · exact h.p1MetaData hdig [[.applyTableWrites d x]] (by simp) ⟨_, _, rfl⟩
    · simp only [if_neg hprep]
      split
      · exact h.p1MetaData hdig [[.applyTableWrites d x]] (by simp) ⟨_, _, rfl⟩
      · exact h.p1MetaData hdig [] (by simp) ⟨_, _, by rw [append_nil]; rfl⟩

theorem Inv.registerForceMaterialization (hdig : p.transactionDigest x = d) (sup : List Digest) :
    Spawns p s (registerForceMaterialization { s with txns := { s.txns with suppliedSync := sup } } d x) pend := by
  obtain ⟨p1, new, heq, hnew⟩ := registerForceMaterialization_spec
    { s with txns := { s.txns with suppliedSync := sup } } d x
  exact h.p1MetaData hdig new hnew ⟨p1, sup, heq⟩

theorem Inv.processSuppliedTxn {info : TxnInfo} (hsup : Supplied p s.txns d info)
    (hstep : s.processSuppliedTxn p d info = some s') : Spawns p s s' pend := by
  unfold Server.processSuppliedTxn at hstep
  split at hstep
  · cases hstep
    exact h.spawns rfl
  simp only at hstep
  have hgrows : s.txns.Grows { s.txns with suppliedSync := s.txns.suppliedSync ++ [d] } :=
    ⟨fun _ h => h, fun _ h => h, fun _ _ h => h, fun _ h => .inl h⟩
  have hsettled : Settled p { s.txns with suppliedSync := s.txns.suppliedSync ++ [d] } :=
    ⟨h.settled.ongoing, h.settled.materialized⟩
  split at hstep
  · cases hstep
    exact (h.setTxns hgrows hsettled).spawns rfl
  split at hstep
  · rename_i x valid hproof
    split at hstep
    · -- a genesis transaction
      rename_i hgenesis
      obtain ⟨ts, hts, rfl⟩ := map_eq_some_iff.mp hstep
      simp only [Bool.and_eq_true, decide_eq_true_eq] at hgenesis
      obtain ⟨hmat, htx⟩ := hsup.1 (x, valid) hproof hgenesis.1 hgenesis.2
      refine ⟨_, rfl, h.addThread hgrows hsettled fun a ha => ?_⟩
      simp only [mem_cons, not_mem_nil, or_false] at ha
      rcases ha with rfl | rfl
      · exact ⟨⟨hmat, nofun⟩, rfl⟩
      · exact ⟨⟨htx ts hts, nofun⟩, rfl⟩
    · split at hstep
      · rename_i hvalid
        cases hstep
        simp only [Bool.and_eq_true, decide_eq_true_eq] at hvalid
        refine ⟨_, rfl, h.addThread hgrows hsettled fun a ha => ?_⟩
        cases mem_singleton.mp ha
        exact ⟨hvalid.1.symm, rfl⟩
      · cases hstep
  · split at hstep
    · cases hstep
    rename_i x hp1
    split at hstep
    · split at hstep
      · obtain ⟨y, hy, rfl⟩ := map_eq_some_iff.mp hstep
        exact h.registerForceMaterialization (h.settled.ongoing d y hy) _
      · rename_i hsign
        cases hstep
        exact h.registerForceMaterialization (hsup.2 (by simpa using hsign) x hp1) _
    · split at hstep
      · rename_i hdig
        obtain ⟨t, hadd, rfl⟩ := map_eq_some_iff.mp hstep
        obtain ⟨hg, hs⟩ := addOngoing_spec hadd hdig.symm hsettled
        exact (h.setTxns (hgrows.trans hg) hs).spawns rfl
      · cases hstep

end

def Server.Pending (s : Server) (a : Action) : Prop := a ∈ s.threads.flatten

theorem mem_flatten_set_append {α : Type*} {l : List (List α)} {i : Nat} (hi : i < l.length) (xs ys : List α) (a : α) :
    a ∈ (l.set i (xs ++ ys)).flatten ↔ a ∈ xs ∨ a ∈ (l.set i ys).flatten := by
  induction l generalizing i with
  | nil => simp at hi
  | cons as l ih =>
    cases i with
    | zero => simp
    | succ i =>
      have hrest := ih (Nat.lt_of_succ_lt_succ hi)
      simp only [set_cons_succ, flatten_cons, mem_append, hrest]
      tauto

theorem Server.pending_iff {i : Nat} {rest : List Action} (hi : s.threads[i]? = some (b :: rest))
    (a : Action) : s.Pending a ↔ a = b ∨ a ∈ (s.threads.set i rest).flatten := by
  obtain ⟨hlt, hget⟩ := List.getElem?_eq_some_iff.mp hi
  have hset : s.threads.set i ([b] ++ rest) = s.threads := by
    rw [singleton_append, ← hget]
    exact set_getElem_self hlt
  have hmem := mem_flatten_set_append hlt [b] rest a
  rw [hset, mem_singleton] at hmem
  exact hmem

/-- The wake-ups of a query do not overlap, a deleted query is below the watermark, snapshots have ids of one kind, and
what replicas say of transactions is true. -/
def Orderly (p : Params) (s : Server) : Event → Prop
  | .query m => queryDigest p.hashDigest m.query ∈ s.alreadyDeleted →
      s.belowWatermark m.query.clientId m.query.querySeqNum = true
  | .sync m => m.mergedSs.queryDigest ∈ s.alreadyDeleted →
      s.belowWatermark m.mergedSs.clientId m.mergedSs.querySeqNum = true
  | .process q => ∀ md ∈ s.queryMetaData q, ∀ ss ∈ md.mergedSsMsg, Fits ss md
  | .supply d info => Supplied p s.txns d info
  | .thread i => ∀ as ∈ s.threads[i]?, ∀ a ∈ as.head?, ∀ r ∈ a.woken, ∀ b ∈ (s.threads.set i as.tail).flatten,
      b.woken ≠ some r
  | _ => True

instance : (e : Event) → Decidable (Orderly p s e)
  | .query m => inferInstanceAs (Decidable (queryDigest p.hashDigest m.query ∈ s.alreadyDeleted → _))
  | .sync m => inferInstanceAs (Decidable (m.mergedSs.queryDigest ∈ s.alreadyDeleted → _))
  | .process q => inferInstanceAs (Decidable (∀ md ∈ s.queryMetaData q, ∀ ss ∈ md.mergedSsMsg, Fits ss md))
  | .supply d info => inferInstanceAs (Decidable (Supplied p s.txns d info))
  | .thread i => inferInstanceAs (Decidable (∀ as ∈ s.threads[i]?, ∀ a ∈ as.head?, ∀ r ∈ a.woken,
      ∀ b ∈ (s.threads.set i as.tail).flatten, b.woken ≠ some r))
  | .phase1 _ => .isTrue trivial
  | .phase1CB _ _ _ => .isTrue trivial
  | .writeback _ _ => .isTrue trivial

theorem Inv.handleQuery {msg : QueryRequest} (h : Inv p s pend) (hok : Orderly p s (.query msg))
    (hstep : s.handleQuery p msg = some s') : s'.threads = s.threads ∧ Inv p s' pend := by
  unfold Server.handleQuery at hstep
  simp only at hstep
  split_ifs at hstep with hwm hlock hold hver hpoint
  · cases hstep
    exact ⟨rfl, h⟩
  · cases hstep
    exact ⟨rfl, h⟩
  · cases hstep
    exact ⟨rfl, h⟩
  · cases hstep
    exact ⟨rfl, h⟩
  · have hnot : queryDigest p.hashDigest msg.query ∉ s.alreadyDeleted := fun hmem => hwm (hok hmem)
    refine h.acceptQuery hnot ((h.queries _).getD hnot rfl rfl) ?_ hstep
    cases hmd : s.queryMetaData (queryDigest p.hashDigest msg.query) with
    | none => rfl
    | some md => exact unchecked_of_unlocked hmd (by simpa using hlock)

theorem Inv.handleSync {msg : SyncClientProposal} (h : Inv p s pend) (hok : Orderly p s (.sync msg))
    (hstep : s.handleSync msg = some s') : s'.threads = s.threads ∧ Inv p s' pend := by
  unfold Server.handleSync at hstep
  simp only at hstep
  split_ifs at hstep with hwm hlock hold hver
  · cases hstep
    exact ⟨rfl, h⟩
  · cases hstep
    exact ⟨rfl, h⟩
  · have hnot : msg.mergedSs.queryDigest ∉ s.alreadyDeleted := fun hmem => hwm (hok hmem)
    refine h.acceptSync hnot ((h.queries _).getD hnot rfl rfl) ?_ hstep
    cases hmd : s.queryMetaData msg.mergedSs.queryDigest with
    | none => rfl
    | some md => exact unchecked_of_unlocked hmd (by simpa using hlock)

theorem Inv.runAction (h : Inv p s fun a => a = b ∨ P a)
    (hone : ∀ r ∈ b.woken, ∀ a, P a → a.woken ≠ some r) (hstep : s.runAction p b = some res) :
    Spawns p s res.1 fun a => P a ∨ a ∈ res.2 := by
  cases b with
  | applyTableWrites d x =>
    obtain ⟨t, happly, hstep⟩ := bind_eq_some_iff.mp hstep
    obtain ⟨actions, hactions, rfl⟩ := map_eq_some_iff.mp hstep
    obtain ⟨hg, hs, hmat, hts⟩ := applyTableWrites_spec happly (h.sound _ (.inl rfl)) h.settled
    have hnew := checkWaitingQueries_spec hactions hmat nofun hts
    refine Inv.spawns (h.txns hg hs rfl rfl rfl rfl (fun a hp => ?_) fun a hp => ?_) rfl
    · exact hp.elim (fun hp => .inl (.inr hp)) fun hmem => .inr (hnew a hmem)
    · exact hp.elim (fun heq => .inr (heq ▸ rfl)) fun hp => .inl (.inl hp)
  | commitWithProof d x =>
    obtain ⟨s₁, hcommit, rfl⟩ := map_eq_some_iff.mp hstep
    have hdig : p.transactionDigest x = d := h.sound _ (.inl rfl)
    simpa using (h.forget rfl).commit hdig hcommit
  | updateWaitingQueries d isAbort =>
    simp only [runAction] at hstep
    split at hstep
    · cases hstep
    rename_i hlock
    have hupd := updates_updateWaitingQueries s d isAbort
    cases hstep
    exact (h.updateWaitingQueries (by simpa using hlock) rfl).spawns hupd.threads
  | updateWaitingQueriesTS ts d isAbort =>
    simp only [runAction] at hstep
    split at hstep
    · cases hstep
    rename_i hlock
    have hupd := updates_updateWaitingQueriesTS s ts d isAbort
    cases hstep
    exact (h.updateWaitingQueriesTS (by simpa using hlock) rfl).spawns hupd.threads
  | removeTxn d r =>
    simp only [runAction] at hstep
    split at hstep
    · cases hstep
    split at hstep
    · cases hstep
      simpa using (h.forget rfl).spawns rfl
    · rename_i md hmd
      cases hstep
      exact Inv.spawns (by simpa using h.removeTxn hmd) rfl
  | wakeQuery d isAbort r =>
    simp only [runAction] at hstep
    split at hstep
    · cases hstep
    rename_i hlock
    split at hstep
    · rename_i hidle
      cases hstep
      simpa using (h.drop rfl hidle).spawns rfl
    · rename_i md hmd
      cases hstep
      exact Inv.spawns (by simpa using h.wakeQuery (hone r rfl) (by simpa using hlock) hmd) rfl
  | translateTS ts d isAbort r =>
    simp only [runAction] at hstep
    split at hstep
    · cases hstep
    · rename_i hlock
      cases hstep
      simpa using h.translateTS (hone r rfl) (by simpa using hlock)

theorem Inv.pending {new : List (List Action)} (h : Inv p s fun a => pend a ∨ a ∈ new.flatten)
    (hiff : ∀ a, s'.Pending a ↔ pend a ∨ a ∈ new.flatten) (hframe : Frames p s s') : Inv p s' s'.Pending :=
  h.txns hframe.grows hframe.settled hframe.queryMetaData hframe.queryMissingTxns hframe.alreadyDeleted
    hframe.executions
    (fun a hp => .inl ((hiff a).mp hp)) fun a hp => .inl ((hiff a).mpr hp)

theorem Inv.step {e : Event} (h : Inv p s s.Pending) (hok : Orderly p s e) (hstep : s.step p e = some s') :
    Inv p s' s'.Pending := by
  -- the threads that a step adds
  have hadd : Spawns p s s' s.Pending → Inv p s' s'.Pending := by
    rintro ⟨new, hthreads, h'⟩
    refine h'.pending (fun a => ?_) ⟨rfl, rfl, rfl, rfl, .refl _, h'.settled⟩
    rw [Pending, hthreads, flatten_append, mem_append]
    rfl
  have hsame : s'.threads = s.threads ∧ Inv p s' s.Pending → Inv p s' s'.Pending := fun ⟨hthreads, h'⟩ =>
    hadd (h'.spawns hthreads)
  cases e with
  | query msg => exact hsame (h.handleQuery hok hstep)
  | sync msg => exact hsame (h.handleSync hok hstep)
  | process q => exact hadd (h.process hok hstep)
  | phase1 x =>
    obtain ⟨t, haddOngoing, rfl⟩ := map_eq_some_iff.mp hstep
    obtain ⟨hg, hs⟩ := addOngoing_spec haddOngoing rfl h.settled
    exact h.setTxns hg hs
  | phase1CB d res force => exact hadd (h.handlePhase1CB hstep)
  | writeback x decision => exact hadd (h.handleWriteback rfl hstep)
  | supply d info => exact hadd (h.processSuppliedTxn hok hstep)
  | thread i =>
    simp only [Server.step, Server.runThread] at hstep
    split at hstep
    · rename_i b rest hi
      obtain ⟨res, hrun, rfl⟩ := map_eq_some_iff.mp hstep
      obtain ⟨hlt, -⟩ := List.getElem?_eq_some_iff.mp hi
      have h₀ : Inv p s fun a => a = b ∨ a ∈ (s.threads.set i rest).flatten :=
        h.txns (.refl _) h.settled rfl rfl rfl rfl (fun a hp => .inl ((pending_iff hi a).mpr hp))
          fun a hp => .inl ((pending_iff hi a).mp hp)
      obtain ⟨new, hthreads, h₁⟩ := h₀.runAction (hok (b :: rest) hi b rfl) hrun
      refine h₁.pending (fun a => ?_) ⟨rfl, rfl, rfl, rfl, .refl _, h₁.settled⟩
      rw [Pending, hthreads, set_append_left _ _ hlt, flatten_append, mem_append, mem_flatten_set_append hlt]
      exact or_congr_left or_comm
    · cases hstep

theorem inv_init : Inv p .init init.Pending where
  settled := settled_init
  sound _ hp := by cases hp
  queries _ := ⟨nofun, fun _ => ⟨fun _ => rfl, nofun⟩⟩
  executions _ hx := by cases hx

/-- In orderly runs, every query is executed on a fully materialized snapshot: each id is of a transaction that is
aborted, or in the snapshot executed on with its own table writes applied. -/
theorem snapshots_materialized {es : List Event} (hmeets : Run.Meets (step p) (Orderly p) .init es)
    (hrun : Run.exec (step p) .init es = some s) : ∀ x ∈ s.executions, x.Materialized p s.txns := by
  have hinv : Inv p s s.Pending :=
    Run.exec_invariant_of_meets (P := fun s => Inv p s s.Pending) (fun h hok hst => h.step hok hst) inv_init hmeets hrun
  exact hinv.executions

def timestampParams : Params where
  optimisticTxID := true
  signClientProposals := true
  hashDigest := true
  transactionDigest := fun x => [UInt8.ofNat x.clientId, UInt8.ofNat x.clientSeqNum]

def scanQuery : Query := { clientId := 1, querySeqNum := 1, queryCmd := [7], timestamp := ⟨40960, 1⟩ }

def scanQueryId : QueryId := queryDigest true scanQuery

def syncRun (optimistic : Bool) (txns : List Digest) (ts : List Nat) : List Event :=
  [.query { query := scanQuery, processId := 1, verifies := true, optimisticTxid := some optimistic }, .sync
      { mergedSs := { queryDigest := scanQueryId, clientId := 1, querySeqNum := 1, mergedTxns := txns, mergedTs := ts },
        processId := 1, verifies := true }] ++
    List.replicate (txns.length + ts.length + 1) (.process scanQueryId)

def writerTxn (client : Nat) : Txn :=
  { clientId := client, clientSeqNum := 1, timestamp := ⟨4096, client⟩, tableWrites := [([1], some [[2]])] }

def prepareRun (client thread : Nat) : List Event :=
  [.phase1 (writerTxn client), .phase1CB [UInt8.ofNat client, 1] .commit false, .thread thread, .thread thread,
    .thread thread]

def genesisRun : List Event :=
  syncRun false [[2, 1]] [] ++
    [.supply [2, 1] { commitProof := some ({ clientId := 0, clientSeqNum := 0, timestamp := ⟨0, 0⟩ }, false) },
      .thread 0, .thread 0]

def overlappingRun : List Event :=
  syncRun true [] [4098, 4099] ++ prepareRun 2 0 ++ prepareRun 3 1 ++ [.thread 0]

/-- A query is executed on a snapshot with a transaction the replica does not have, and without one that it names. -/
theorem unmaterialized_snapshot : (∃ s, Run.exec (step timestampParams) .init genesisRun = some s ∧
      ∃ x ∈ s.executions, ¬ x.Materialized timestampParams s.txns) ∧
    ∃ s, Run.exec (step timestampParams) .init overlappingRun = some s ∧
      ∃ x ∈ s.executions, ¬ x.Materialized timestampParams s.txns := by
  refine ⟨⟨_, rfl, _, mem_cons_self, fun h => ?_⟩, ⟨_, rfl, _, mem_cons_self, fun h => ?_⟩⟩
  · rcases (h _ _ rfl).1 [2, 1] (by decide +kernel) with hab | ⟨-, x, -, happ⟩
    · cases hab
    · cases happ
  obtain ⟨d, hd, hden⟩ := (h _ _ rfl).2 4099 (by decide +kernel)
  cases hd
  rcases hden with hab | ⟨hmem, -⟩
  · cases hab
  · revert hmem
    decide +kernel

def orderlyRun : List Event :=
  syncRun true [] [4098, 4099] ++ prepareRun 2 0 ++ [.thread 0] ++ prepareRun 3 1 ++ [.thread 1]

theorem snapshots_materialized_orderly :
    Run.Meets (step timestampParams) (Orderly timestampParams) .init orderlyRun ∧
      ∃ s, Run.exec (step timestampParams) .init orderlyRun = some s ∧ s.executions.length = 1 ∧
        ∀ x ∈ s.executions, x.Materialized timestampParams s.txns := by
  have hmeets : Run.Meets (step timestampParams) (Orderly timestampParams) .init orderlyRun := by decide +kernel
  have hrun : Run.exec (step timestampParams) .init orderlyRun = some _ := rfl
  exact ⟨hmeets, _, hrun, rfl, snapshots_materialized hmeets hrun⟩

end Pequin.QueryServer
