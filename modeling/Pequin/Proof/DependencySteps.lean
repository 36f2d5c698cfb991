import Pequin.Framework.Run
import Pequin.Proof.DependencyWait

/-!
# Steps of the dependency wait

The invariant of `Proof/DependencyWait.lean`, step by step.
-/

namespace Pequin

open CheckPc DepState Function List Resumption

variable {groupIdx i : Nat} {txns : Digest → Transaction} {s s' : DepState} {X Y T : Digest} {pc pc' : CheckPc}
  {missing ds rest : List Digest} {p1 : Bool} {w dd : Digest → Option (List Digest)} {rs : List Resumption}
  {deps : List Dependency}

namespace DepState

/-! ## The thread of one commit or abort -/

section Threads

theorem mem_finishing (h : s.finishing[i]? = some (X, pc)) : (X, pc) ∈ s.finishing :=
  mem_iff_getElem?.mpr ⟨i, h⟩

theorem pending_of_mem (hi : Inv groupIdx txns s) (h : (X, pc) ∈ s.finishing) :
    Pending s X T ↔ pc = .start ∧ (∃ l, s.dependents X = some l ∧ T ∈ l) ∨ T ∈ pc.rest := by
  have hfin := hi.finished X pc h
  constructor
  · rintro (⟨hfin' | hstart, hl⟩ | ⟨pc', hmem, hT⟩)
    · rw [hfin] at hfin'
      cases hfin'
    · exact .inl ⟨eq_of_mem_of_nodup hi.keys h hstart, hl⟩
    · rw [eq_of_mem_of_nodup hi.keys h hmem]
      exact .inr hT
  · rintro (⟨rfl, hl⟩ | hT)
    · exact .inl ⟨.inr h, hl⟩
    · exact .inr ⟨pc, h, hT⟩

def threadStep (s : DepState) (i : Nat) (X : Digest) (pc : CheckPc) (waiting : Digest → Option (List Digest))
    (dependents : Digest → Option (List Digest)) (resumed : List Resumption) : DepState :=
  { s with waiting := waiting, dependents := dependents, resumed := resumed }.setPc i X pc

variable (hi : Inv groupIdx txns s) (h : s.finishing[i]? = some (X, pc))
include hi h

theorem mem_threadStep {q : CheckPc} :
    (Y, q) ∈ (s.threadStep i X pc' w dd rs).finishing ↔ Y = X ∧ q = pc' ∨ Y ≠ X ∧ (Y, q) ∈ s.finishing :=
  mem_set_of_nodup hi.keys h

theorem pending_threadStep (hpc : pc' ≠ .start) (hdd : ∀ Y, Y ≠ X → dd Y = s.dependents Y) :
    Pending (s.threadStep i X pc' w dd rs) Y T ↔ Y = X ∧ T ∈ pc'.rest ∨ Y ≠ X ∧ Pending s Y T := by
  have hmem : ∀ {Z : Digest} {q : CheckPc}, (Z, q) ∈ (s.threadStep i X pc' w dd rs).finishing ↔
      Z = X ∧ q = pc' ∨ Z ≠ X ∧ (Z, q) ∈ s.finishing := mem_threadStep hi h
  by_cases hY : Y = X
  · subst hY
    have hfin := hi.finished Y pc (mem_finishing h)
    simp only [true_and, ne_eq, not_true_eq_false, false_and, or_false]
    constructor
    · rintro (⟨hfin' | hstart, -⟩ | ⟨q, hq, hT⟩)
      · have hfin'' : s.finished Y = false := hfin'
        rw [hfin] at hfin''
        cases hfin''
      · rcases hmem.mp hstart with ⟨-, heq⟩ | ⟨hne, -⟩
        · exact absurd heq.symm hpc
        · exact absurd rfl hne
      · rcases hmem.mp hq with ⟨-, rfl⟩ | ⟨hne, -⟩
        · exact hT
        · exact absurd rfl hne
    · exact fun hT => .inr ⟨pc', hmem.mpr (.inl ⟨rfl, rfl⟩), hT⟩
  · have hmem' : ∀ q, (Y, q) ∈ (s.threadStep i X pc' w dd rs).finishing ↔ (Y, q) ∈ s.finishing := fun q => by
      rw [hmem]
      simp [hY]
    have hdd' : (s.threadStep i X pc' w dd rs).dependents Y = s.dependents Y := hdd Y hY
    simp only [hY, false_and, false_or, ne_eq, not_false_eq_true, true_and]
    unfold Pending
    simp only [hmem', hdd']
    rfl

theorem frame_threadStep (hpc : pc' ≠ .start) (hdd : ∀ Y, Y ≠ X → dd Y = s.dependents Y) (hw : w T = s.waiting T)
    (hrs : T ∈ rs.map txn ↔ T ∈ s.resumed.map txn) (hb : pc.buffers ≠ some T)
    (hb' : pc'.buffers ≠ some T) (hp : T ∈ pc'.rest ↔ Pending s X T) : Frame s (s.threadStep i X pc' w dd rs) T where
  waiting := hw
  managing := rfl
  buffers := by
    intro Y r rest hr
    rw [mem_threadStep hi h]
    constructor
    · rintro (⟨-, heq⟩ | ⟨-, hmem⟩)
      · rw [← heq] at hb'
        exact absurd (congrArg some hr) hb'
      · exact hmem
    · intro hmem
      refine .inr ⟨?_, hmem⟩
      rintro rfl
      rw [← eq_of_mem_of_nodup hi.keys hmem (mem_finishing h)] at hb
      exact hb (congrArg some hr)
  pending := by
    intro Y
    rw [pending_threadStep hi h hpc hdd]
    by_cases hY : Y = X
    · subst hY
      simp [hp]
    · simp [hY]
  finished := fun _ hfin => hfin
  resumed := hrs
  waited := Iff.rfl

theorem inv_threadStep (hlists : ∀ Y l, dd Y = some l → l.Nodup) (hrest : pc'.rest.Nodup)
    (htxn : ∀ T, TxnInv groupIdx txns (s.threadStep i X pc' w dd rs) T) (hright : ∀ r ∈ rs, r.Right groupIdx txns ∧
      ∀ Y ∈ localDigests groupIdx (txns r.txn).depSet, s.finished Y = true)
    (honce : (rs.map txn).Nodup) : Inv groupIdx txns (s.threadStep i X pc' w dd rs) where
  keys := by
    have hkeys : (s.threadStep i X pc' w dd rs).finishing.map Prod.fst = s.finishing.map Prod.fst := keys_set h
    rw [hkeys]
    exact hi.keys
  finished := by
    intro Y q hmem
    rcases (mem_threadStep hi h).mp hmem with ⟨rfl, -⟩ | ⟨-, hmem'⟩
    · exact hi.finished Y pc (mem_finishing h)
    · exact hi.finished Y q hmem'
  notHeld := hi.notHeld
  lists := hlists
  rests := by
    intro Y q hmem
    rcases (mem_threadStep hi h).mp hmem with ⟨-, rfl⟩ | ⟨-, hmem'⟩
    · exact hrest
    · exact hi.rests Y q hmem'
  sorted := hi.sorted
  txn := htxn
  right := hright
  once := honce

end Threads

/-! ## Calls of `ManageDependencies` -/

/-- What a call of `ManageDependencies` for `T` leaves alone. -/
structure Local (s s' : DepState) (T : Digest) : Prop where
  committed : s'.committed = s.committed
  aborted : s'.aborted = s.aborted
  dependents : s'.dependents = s.dependents
  finishing : s'.finishing = s.finishing
  resumed : s'.resumed = s.resumed
  waiting : ∀ T', T' ≠ T → s'.waiting T' = s.waiting T'
  managing : ∀ T', T' ≠ T → s'.managing T' = s.managing T'
  waited : ∀ T', T' ≠ T → (T' ∈ s'.waited ↔ T' ∈ s.waited)

namespace Local

variable (h : Local s s' T)

include h

theorem finished (X : Digest) : s'.finished X = s.finished X := by
  rw [DepState.finished, DepState.finished, h.committed, h.aborted]

theorem pending (X U : Digest) : Pending s' X U ↔ Pending s X U := by
  unfold Pending
  rw [h.finished, h.finishing, h.dependents]

theorem buffering (U : Digest) : Buffering s' U ↔ Buffering s U := by
  unfold Buffering
  rw [h.finishing]

theorem awaits {U : Digest} {deps : List Digest} (ha : Awaits s U deps missing) : Awaits s' U deps missing :=
  ⟨fun X => (h.pending X U).trans (ha.pending X), ha.mem,
    fun X hX => (ha.covered X hX).imp id fun hf => (h.finished X).trans hf⟩

theorem frame {T' : Digest} (hne : T' ≠ T) : Frame s s' T' where
  waiting := h.waiting T' hne
  managing := h.managing T' hne
  buffers := fun X r rest _ => by rw [h.finishing]
  pending := fun X => h.pending X T'
  finished := fun X hf => (h.finished X).trans hf
  resumed := by rw [h.resumed]
  waited := h.waited T' hne

theorem inv (hi : Inv groupIdx txns s) (hheld : ∀ U, s'.heldP1 U = false)
    (hsorted : ∀ m, s'.managing T = some m → (localDigests groupIdx (txns T).depSet).Pairwise (· < ·))
    (ht : Local s s' T → TxnInv groupIdx txns s' T) : Inv groupIdx txns s' where
  keys := by
    rw [h.finishing]
    exact hi.keys
  finished := fun X pc hmem => by
    rw [h.finished]
    exact hi.finished X pc (h.finishing ▸ hmem)
  notHeld := hheld
  lists := fun X l hl => hi.lists X l (h.dependents ▸ hl)
  rests := fun X pc hmem => hi.rests X pc (h.finishing ▸ hmem)
  sorted := fun U m hm => by
    by_cases hU : U = T
    · subst hU
      exact hsorted m hm
    · exact hi.sorted U m ((h.managing U hU).symm.trans hm)
  txn := fun U => by
    by_cases hU : U = T
    · subst hU
      exact ht h
    · exact (hi.txn U).frame (h.frame hU)
  right := fun r hr => by
    obtain ⟨hr₁, hr₂⟩ := hi.right r (h.resumed ▸ hr)
    exact ⟨hr₁, fun X hX => (h.finished X).trans (hr₂ X hX)⟩
  once := by
    rw [h.resumed]
    exact hi.once

end Local

theorem update_held {held : Digest → Bool} {U : Digest} (h : held U = false) (T : Digest) (p1 : Bool) :
    (if p1 then update held T false else held) U = false := by
  split
  · by_cases hU : U = T
    · subst hU
      exact update_self ..
    · rw [update_of_ne hU]
      exact h
  · exact h

section

variable (hi : Inv groupIdx txns s)
include hi

theorem fresh_of_managing (hm : s.managing T = some ⟨true, p1, missing, deps⟩) :
    ∃ pre, (txns T).depSet = pre ++ deps ∧ s.waiting T = some [] ∧ ¬Buffering s T ∧
      Awaits s T (localDigests groupIdx pre) missing ∧ (T ∈ s.resumed.map txn → missing = []) ∧
      (T ∈ s.waited → s.finished T = true ∨ T ∈ s.resumed.map txn) := by
  cases hi.txn T with
  | idle hw hm' hb hp hin => rw [hm] at hm'; cases hm'
  | fresh hw hm' hb hdeps ha hres hin =>
    rw [hm] at hm'
    cases hm'
    exact ⟨_, hdeps, hw, hb, ha, hres, hin⟩
  | plain hw hm' hb hne ha hres => cases hm' _ hm
  | buffer hw hm' hmem hr huniq ha hright hres => rw [hm] at hm'; cases hm'

theorem plain_of_managing (hm : s.managing T = some ⟨false, p1, missing, deps⟩) :
    ∃ ds, s.waiting T = some ds ∧ ¬Buffering s T ∧ ds ≠ [] ∧
      Awaits s T (localDigests groupIdx (txns T).depSet) ds ∧ T ∉ s.resumed.map txn := by
  cases hi.txn T with
  | idle hw hm' hb hp hin => rw [hm] at hm'; cases hm'
  | fresh hw hm' hb hdeps ha hres hin => rw [hm] at hm'; cases hm'
  | plain hw hm' hb hne ha hres => exact ⟨_, hw, hb, hne, ha, hres⟩
  | buffer hw hm' hmem hr huniq ha hright hres => rw [hm] at hm'; cases hm'

theorem plain_of_free (hfree : s.waitingFree T = true) (hw : s.waiting T = some ds) :
    ds ≠ [] ∧ Awaits s T (localDigests groupIdx (txns T).depSet) ds ∧ T ∉ s.resumed.map txn := by
  obtain ⟨hm, hb⟩ := waitingFree_iff.mp hfree
  cases hi.txn T with
  | idle hw' hm' hb' hp hin => rw [hw] at hw'; cases hw'
  | fresh hw' hm' hb' hdeps ha hres hin => rw [hm] at hm'; cases hm'
  | plain hw' hm' hb' hne ha hres =>
    rw [hw] at hw'
    cases hw'
    exact ⟨hne, ha, hres⟩
  | buffer hw' hm' hmem hr huniq ha hright hres => exact absurd ⟨_, _, _, hmem, hr⟩ hb

theorem idle_of_none (hw : s.waiting T = none) : (s.finished T = false → ∀ X, ¬Pending s X T) ∧
    (T ∈ s.waited → s.finished T = true ∨ T ∈ s.resumed.map txn) := by
  cases hi.txn T with
  | idle hw' hm' hb' hp hin => exact ⟨hp, hin⟩
  | fresh hw' hm' hb' hdeps ha hres hin | plain hw' hm' hb' hne ha hres
  | buffer hw' hm' hmem hr huniq ha hright hres => rw [hw] at hw'; cases hw'

theorem inv_enterNew (hfree : s.waitingFree T = true) (hw : s.waiting T = none) (hfin : s.finished T = false)
    (hsorted : (localDigests groupIdx (txns T).depSet).Pairwise (· < ·)) : Inv groupIdx txns { s with
      waiting := update s.waiting T (some [])
      managing := update s.managing T (some ⟨true, p1, [], (txns T).depSet⟩) } := by
  obtain ⟨hp, hin⟩ := idle_of_none hi hw
  refine Local.inv (s := s) ⟨rfl, rfl, rfl, rfl, rfl, fun _ h => update_of_ne h .., fun _ h => update_of_ne h ..,
    fun _ _ => Iff.rfl⟩ hi hi.notHeld (fun _ _ => hsorted) fun hl => ?_
  have ha : Awaits s T (localDigests groupIdx []) [] :=
    ⟨fun X => ⟨fun hpend => absurd hpend (hp hfin X), fun hX => (nomatch hX)⟩, fun X hX => (nomatch hX),
      fun X hX => (nomatch hX)⟩
  exact .fresh (update_self ..) (update_self ..)
    (fun hb => (waitingFree_iff.mp hfree).2 ((hl.buffering T).mp hb)) (nil_append _).symm (hl.awaits ha)
    (fun _ => rfl) hin

theorem inv_enterOld (hfree : s.waitingFree T = true)
    (hw : s.waiting T = some ds) (hsorted : (localDigests groupIdx (txns T).depSet).Pairwise (· < ·)) :
    Inv groupIdx txns { s with
      managing := update s.managing T (some ⟨false, p1, [], (txns T).depSet⟩) } := by
  obtain ⟨hne, ha, hres⟩ := plain_of_free hi hfree hw
  refine Local.inv (s := s) ⟨rfl, rfl, rfl, rfl, rfl, fun _ _ => rfl, fun _ h => update_of_ne h .., fun _ _ => Iff.rfl⟩
    hi hi.notHeld (fun _ _ => hsorted) fun hl => .plain hw ?_ ?_ hne (hl.awaits ha) hres
  · intro m hm
    simp only [update_self, Option.some.injEq] at hm
    rw [← hm]
  · exact fun hb => (waitingFree_iff.mp hfree).2 ((hl.buffering T).mp hb)

theorem inv_old {m : Managing} (hm : s.managing T = some m) (hold : m.isNew = false)
    {m' : Option Managing} (hm' : ∀ m₁, m' = some m₁ → m₁.isNew = false) {held : Digest → Bool}
    (hheld : ∀ U, held U = false) :
    Inv groupIdx txns { s with managing := update s.managing T m', heldP1 := held } := by
  obtain ⟨isNew, p1, missing, deps⟩ := m
  obtain rfl : isNew = false := hold
  obtain ⟨ds, hw, hb, hne, ha, hres⟩ := plain_of_managing hi hm
  refine Local.inv (s := s) ⟨rfl, rfl, rfl, rfl, rfl, fun _ _ => rfl, fun _ h => update_of_ne h .., fun _ _ => Iff.rfl⟩
    hi hheld (fun _ _ => hi.sorted T _ hm) fun hl => .plain hw ?_ ?_ hne (hl.awaits ha) hres
  · intro m₁ hm₁
    simp only [update_self] at hm₁
    exact hm' m₁ hm₁
  · exact fun hb' => hb ((hl.buffering T).mp hb')

theorem inv_pass {dep : Dependency} (hm : s.managing T = some ⟨true, p1, missing, dep :: deps⟩)
    (hdep : dep.involvedGroup = groupIdx → s.finished dep.preparedTxnDigest = true) : Inv groupIdx txns { s with
      managing := update s.managing T (some ⟨true, p1, missing, deps⟩) } := by
  obtain ⟨pre, hdeps, hw, hb, ha, hres, hin⟩ := fresh_of_managing hi hm
  refine Local.inv (s := s) ⟨rfl, rfl, rfl, rfl, rfl, fun _ _ => rfl, fun _ h => update_of_ne h .., fun _ _ => Iff.rfl⟩
    hi hi.notHeld (fun _ _ => hi.sorted T _ hm) fun hl => ?_
  have hdeps' : (txns T).depSet = (pre ++ [dep]) ++ deps := by
    rw [hdeps, append_assoc, singleton_append]
  refine .fresh hw (update_self ..) (fun hb' => hb ((hl.buffering T).mp hb')) hdeps'
    (hl.awaits ⟨ha.pending, fun X hX => ?_, fun X hX => ?_⟩) hres hin
  · rw [localDigests_append]
    exact mem_append_left _ (ha.mem X hX)
  rw [localDigests_append] at hX
  rcases mem_append.mp hX with hX | hX
  · exact ha.covered X hX
  · obtain ⟨dep', hmem, hg, rfl⟩ := mem_localDigests.mp hX
    rw [mem_singleton] at hmem
    subst hmem
    exact .inr (hdep hg)

theorem inv_concludeIdle (hm : s.managing T = some ⟨true, p1, [], []⟩) : Inv groupIdx txns { s with
    managing := update s.managing T none
    heldP1 := if p1 then update s.heldP1 T false else s.heldP1
    waiting := update s.waiting T none } := by
  obtain ⟨pre, hdeps, hw, hb, ha, hres, hin⟩ := fresh_of_managing hi hm
  refine Local.inv (s := s) ⟨rfl, rfl, rfl, rfl, rfl, fun _ h => update_of_ne h .., fun _ h => update_of_ne h ..,
    fun _ _ => Iff.rfl⟩ hi (fun U => update_held (hi.notHeld U) T p1) (fun _ _ => hi.sorted T _ hm) fun hl => ?_
  refine .idle (update_self ..) (update_self ..) (fun hb' => hb ((hl.buffering T).mp hb')) ?_ hin
  intro _ X hpend
  exact nomatch (ha.pending X).mp ((hl.pending X T).mp hpend)

theorem inv_concludeWait (hm : s.managing T = some ⟨true, p1, missing, []⟩) (hne : missing ≠ []) :
    Inv groupIdx txns { s with
      managing := update s.managing T none
      heldP1 := if p1 then update s.heldP1 T false else s.heldP1
      waiting := update s.waiting T (some missing)
      waited := s.waited ++ [T] } := by
  obtain ⟨pre, hdeps, hw, hb, ha, hres, hin⟩ := fresh_of_managing hi hm
  refine Local.inv (s := s) ⟨rfl, rfl, rfl, rfl, rfl, fun _ h => update_of_ne h .., fun _ h => update_of_ne h ..,
    fun T' h => by simp [h]⟩ hi (fun U => update_held (hi.notHeld U) T p1) (fun _ _ => hi.sorted T _ hm) fun hl => ?_
  rw [append_nil] at hdeps
  rw [← hdeps] at ha
  refine .plain (update_self ..) ?_ (fun hb' => hb ((hl.buffering T).mp hb')) hne (hl.awaits ha)
    fun hmem => hne (hres hmem)
  intro m hm'
  simp only [update_self, reduceCtorEq] at hm'

end

theorem pending_insert {m : Option Managing} (hfin : s.finished X = false) (Y U : Digest) : Pending { s with
    managing := update s.managing T m
    dependents := update s.dependents X (some (((s.dependents X).getD []).insert T)) } Y U ↔
    Pending s Y U ∨ Y = X ∧ U = T := by
  have hfin' : ∀ Z, finished { s with
      managing := update s.managing T m
      dependents := update s.dependents X (some (((s.dependents X).getD []).insert T)) } Z =
        s.finished Z := fun _ => rfl
  unfold Pending
  rw [hfin']
  by_cases hY : Y = X
  · subst hY
    simp only [hfin, true_or, true_and, update_self, Option.some.injEq, exists_eq_left', mem_insert_iff]
    cases s.dependents Y with
    | none => simp [or_comm]
    | some l =>
      simp only [Option.getD_some, Option.some.injEq, exists_eq_left']
      rw [or_assoc]
      exact or_comm
  · simp only [update_of_ne hY, hY, false_and, or_false]

theorem inv_registerNew (hi : Inv groupIdx txns s) {dep : Dependency}
    (hm : s.managing T = some ⟨true, p1, missing, dep :: deps⟩)
    (hg : dep.involvedGroup = groupIdx) (hfin : s.finished dep.preparedTxnDigest = false) : Inv groupIdx txns { s with
      managing := update s.managing T (some ⟨true, p1, missing ++ [dep.preparedTxnDigest], deps⟩)
      dependents := update s.dependents dep.preparedTxnDigest
        (some (((s.dependents dep.preparedTxnDigest).getD []).insert T)) } := by
  obtain ⟨pre, hdeps, hw, hb, ha, hres, hin⟩ := fresh_of_managing hi hm
  have hdeps' : (txns T).depSet = (pre ++ [dep]) ++ deps := by
    rw [hdeps, append_assoc, singleton_append]
  have hlocal : localDigests groupIdx (pre ++ [dep]) = localDigests groupIdx pre ++ [dep.preparedTxnDigest] := by
    rw [localDigests_append, localDigests_cons_of_eq hg]
    rfl
  -- a transaction that was resumed has no dependency that is not finished
  have hnot : T ∉ s.resumed.map txn := by
    intro hmem
    obtain ⟨r, hr, rfl⟩ := mem_map.mp hmem
    have hall := (hi.right r hr).2 dep.preparedTxnDigest
    rw [hdeps', localDigests_append, hlocal] at hall
    rw [hall (by simp)] at hfin
    cases hfin
  have hpend := pending_insert (T := T) (m := some ⟨true, p1, missing ++ [dep.preparedTxnDigest], deps⟩) hfin
  refine ⟨hi.keys, hi.finished, hi.notHeld, fun Y l hl => ?_, hi.rests, fun U m hm' => ?_, fun U => ?_, hi.right,
    hi.once⟩
  · by_cases hY : Y = dep.preparedTxnDigest
    · subst hY
      simp only [update_self, Option.some.injEq] at hl
      subst hl
      refine List.Nodup.insert ?_
      cases hd : s.dependents dep.preparedTxnDigest with
      | none => exact nodup_nil
      | some l => exact hi.lists _ l hd
    · simp only [update_of_ne hY] at hl
      exact hi.lists Y l hl
  · by_cases hU : U = T
    · subst hU
      exact hi.sorted U _ hm
    · simp only [update_of_ne hU] at hm'
      exact hi.sorted U m hm'
  · by_cases hU : U = T
    · subst hU
      refine .fresh hw (update_self ..) hb hdeps' ⟨fun Y => ?_, fun Y hY => ?_, fun Y hY => ?_⟩
        (fun hmem => absurd hmem hnot) hin
      · rw [hpend, ha.pending, mem_append, mem_singleton]
        simp
      · rw [hlocal, mem_append]
        exact (mem_append.mp hY).imp_left (ha.mem Y)
      · rw [hlocal] at hY
        rcases mem_append.mp hY with hY | hY
        · exact (ha.covered Y hY).imp_left (mem_append_left _)
        · exact .inl (mem_append_right _ hY)
    · refine (hi.txn U).frame ⟨rfl, update_of_ne hU .., fun _ _ _ _ => Iff.rfl, fun Y => ?_,
        fun _ h => h, Iff.rfl, Iff.rfl⟩
      rw [hpend]
      simp [hU]

/-! ## Ends of transactions -/

/-- `X` finishes, and nothing else changes. -/
structure Finishes (s s' : DepState) (X : Digest) : Prop where
  finished : ∀ Y, s'.finished Y = true ↔ s.finished Y = true ∨ Y = X
  dependents : s'.dependents = s.dependents
  waiting : s'.waiting = s.waiting
  managing : s'.managing = s.managing
  heldP1 : s'.heldP1 = s.heldP1
  waited : s'.waited = s.waited
  resumed : s'.resumed = s.resumed

theorem Finishes.inv (h : Finishes s s' X) (hi : Inv groupIdx txns s) (hkeys : (s'.finishing.map Prod.fst).Nodup)
    (hmem : ∀ Y pc, (Y, pc) ∈ s'.finishing → (Y, pc) ∈ s.finishing ∨ Y = X ∧ pc = .start)
    (hmem' : ∀ p ∈ s.finishing, p ∈ s'.finishing)
    (hpend : ∀ Y T, Pending s' Y T ↔ Pending s Y T) : Inv groupIdx txns s' where
  keys := hkeys
  finished := fun Y pc hY => by
    rw [h.finished]
    exact (hmem Y pc hY).imp (hi.finished Y pc) And.left
  notHeld := fun T => by
    rw [h.heldP1]
    exact hi.notHeld T
  lists := fun Y l hl => hi.lists Y l (h.dependents ▸ hl)
  rests := fun Y pc hY => by
    rcases hmem Y pc hY with hY | ⟨-, rfl⟩
    · exact hi.rests Y pc hY
    · exact nodup_nil
  sorted := fun T m hm => hi.sorted T m (h.managing ▸ hm)
  txn := fun T => by
    refine (hi.txn T).frame ⟨by rw [h.waiting], by rw [h.managing], fun Y r rest _ => ⟨fun hY => ?_, hmem' _⟩,
      fun Y => hpend Y T, fun Y hY => (h.finished Y).mpr (.inl hY), by rw [h.resumed], by rw [h.waited]⟩
    exact (hmem Y _ hY).resolve_right fun hstart => nomatch hstart.2
  right := fun r hr => by
    obtain ⟨hr₁, hr₂⟩ := hi.right r (h.resumed ▸ hr)
    exact ⟨hr₁, fun Y hY => (h.finished Y).mpr (.inl (hr₂ Y hY))⟩
  once := by
    rw [h.resumed]
    exact hi.once

theorem finished_false_iff (h : Finishes s s' X) (hY : Y ≠ X) : s'.finished Y = false ↔ s.finished Y = false := by
  rw [← Bool.not_eq_true, ← Bool.not_eq_true, h.finished]
  simp [hY]

/-- `Commit` or `Abort` of a transaction that is not finished: who is in its list is pending still. -/
theorem inv_finish (h : Finishes s s' X) (hi : Inv groupIdx txns s) (hX : s.finished X = false)
    (hf : s'.finishing = s.finishing ++ [(X, .start)]) : Inv groupIdx txns s' := by
  have hnot : ∀ pc, (X, pc) ∉ s.finishing := fun pc hmem => by
    rw [hi.finished X pc hmem] at hX
    cases hX
  have hmem : ∀ Y pc, (Y, pc) ∈ s'.finishing ↔ (Y, pc) ∈ s.finishing ∨ Y = X ∧ pc = .start := fun Y pc => by
    rw [hf]
    simp
  refine h.inv hi ?_ (fun Y pc => (hmem Y pc).mp) (fun p hp => (hmem p.1 p.2).mpr (.inl hp)) fun Y T => ?_
  · rw [hf, map_append]
    refine nodup_append.mpr ⟨hi.keys, nodup_singleton X, ?_⟩
    rintro Y hY Z hZ rfl
    obtain ⟨⟨Y', pc⟩, hp, rfl⟩ := mem_map.mp hY
    rw [map_singleton, mem_singleton] at hZ
    subst hZ
    exact hnot pc hp
  · unfold Pending
    rw [h.dependents]
    by_cases hY : Y = X
    · subst hY
      have hstart : (Y, start) ∈ s'.finishing := (hmem Y .start).mpr (.inr ⟨rfl, rfl⟩)
      simp only [hX, true_or, hstart, or_true, true_and]
      refine or_congr_right ⟨?_, fun ⟨pc, hp, _⟩ => absurd hp (hnot pc)⟩
      rintro ⟨pc, hp, hT⟩
      rcases (hmem Y pc).mp hp with hp | ⟨-, rfl⟩
      · exact absurd hp (hnot pc)
      · cases hT
    · simp only [finished_false_iff h hY, hmem, hY, false_and, or_false]

theorem inv_hardClean (h : Finishes s s' X) (hi : Inv groupIdx txns s) (hX : s.finished X = false)
    (hd : s.dependents X = none) (hf : s'.finishing = s.finishing) : Inv groupIdx txns s' := by
  refine h.inv hi (by rw [hf]; exact hi.keys) (fun Y pc hY => .inl (hf ▸ hY)) (fun p hp => hf ▸ hp) fun Y T => ?_
  unfold Pending
  rw [h.dependents, hf]
  by_cases hY : Y = X
  · subst hY
    simp [hd]
  · simp only [finished_false_iff h hY]

/-! ## Steps of `CheckDependents` -/

section

variable (hi : Inv groupIdx txns s)
include hi

/-- A step that changes no entry of `waitingDependencies_new`, and reaches nobody. -/
theorem inv_turn (h : s.finishing[i]? = some (X, pc)) (hpc : pc' ≠ .start) (hdd : ∀ Y, Y ≠ X → dd Y = s.dependents Y)
    (hlists : ∀ Y l, dd Y = some l → l.Nodup) (hrest : pc'.rest.Nodup) (hb : pc.buffers = none)
    (hb' : pc'.buffers = none) (hp : ∀ T, T ∈ pc'.rest ↔ Pending s X T) :
    Inv groupIdx txns (s.threadStep i X pc' s.waiting dd s.resumed) := by
  refine inv_threadStep hi h hlists hrest (fun T => ?_) hi.right hi.once
  refine (hi.txn T).frame (frame_threadStep hi h hpc hdd rfl Iff.rfl ?_ ?_ (hp T))
  · rw [hb]
    exact fun h => nomatch h
  · rw [hb']
    exact fun h => nomatch h

theorem inv_noDependents (h : s.finishing[i]? = some (X, .start))
    (hd : s.dependents X = none) : Inv groupIdx txns (s.setPc i X .clean) := by
  refine inv_turn hi h (by nofun) (fun _ _ => rfl) hi.lists nodup_nil rfl rfl fun T => ?_
  rw [pending_of_mem hi (mem_finishing h), hd]
  simp [CheckPc.rest]

theorem inv_find {order l : List Digest} (h : s.finishing[i]? = some (X, .start))
    (hd : s.dependents X = some l) (hp : order.Perm l) : Inv groupIdx txns (s.setPc i X (.visit order)) := by
  refine inv_turn hi h (by nofun) (fun _ _ => rfl) hi.lists (hp.nodup_iff.mpr (hi.lists X l hd)) rfl rfl
    fun T => ?_
  rw [pending_of_mem hi (mem_finishing h), hd]
  simp [CheckPc.rest, hp.mem_iff]

theorem inv_erase (h : s.finishing[i]? = some (X, .visit [])) :
    Inv groupIdx txns ({ s with dependents := update s.dependents X none }.setPc i X .clean) := by
  have hdd : ∀ Y, Y ≠ X → update s.dependents X none Y = s.dependents Y := fun Y hY =>
    update_of_ne hY ..
  refine inv_turn hi h (by nofun) hdd (fun Y l hl => ?_) nodup_nil rfl rfl fun T => ?_
  · by_cases hY : Y = X
    · subst hY
      simp only [update_self, reduceCtorEq] at hl
    · exact hi.lists Y l ((hdd Y hY).symm.trans hl)
  · rw [pending_of_mem hi (mem_finishing h)]
    simp [CheckPc.rest]

theorem inv_visit (h : s.finishing[i]? = some (X, .visit (T :: rest)))
    (hpc : pc' ≠ .start) (hrest : pc'.rest = rest) (hb : ∀ U, U ≠ T → pc'.buffers ≠ some U)
    (hw : ∀ U, U ≠ T → w U = s.waiting U)
    (ht : TxnInv groupIdx txns (s.threadStep i X pc' w s.dependents s.resumed) T) :
    Inv groupIdx txns (s.threadStep i X pc' w s.dependents s.resumed) := by
  have hnodup : (T :: rest).Nodup := hi.rests X _ (mem_finishing h)
  refine inv_threadStep hi h hi.lists (hrest ▸ hnodup.of_cons) (fun U => ?_) hi.right hi.once
  by_cases hU : U = T
  · subst hU
    exact ht
  · refine (hi.txn U).frame (frame_threadStep hi h hpc (fun _ _ => rfl) (hw U hU) Iff.rfl nofun
      (hb U hU) ?_)
    rw [pending_of_mem hi (mem_finishing h), hrest]
    simp [CheckPc.rest, hU]

theorem pending_visit
    (h : s.finishing[i]? = some (X, .visit (T :: rest))) (hpc : pc' ≠ .start) (hrest : pc'.rest = rest) (Y : Digest) :
    Pending (s.threadStep i X pc' w s.dependents s.resumed) Y T ↔ Y ≠ X ∧ Pending s Y T := by
  have hnodup : (T :: rest).Nodup := hi.rests X _ (mem_finishing h)
  rw [pending_threadStep hi h hpc fun _ _ => rfl, hrest]
  simp [(nodup_cons.mp hnodup).1]

end

/-- A visit of a transaction whose entry is free leaves no thread about to buffer its result but the visitor. -/
theorem buffering_visit (hi : Inv groupIdx txns s) (h : s.finishing[i]? = some (X, pc))
    (hfree : s.waitingFree T = true) {r : Resumption}
    (hmem : (Y, .buffer r rest) ∈ (s.threadStep i X pc' w s.dependents s.resumed).finishing) (hr : r.txn = T) :
    Y = X ∧ buffer r rest = pc' := by
  rcases (mem_threadStep hi h).mp hmem with heq | ⟨-, hmem'⟩
  · exact heq
  · exact absurd ⟨Y, r, rest, hmem', hr⟩ (waitingFree_iff.mp hfree).2

section

variable (hi : Inv groupIdx txns s) (h : s.finishing[i]? = some (X, .visit (T :: rest)))
include hi h

theorem inv_absent (hfree : s.waitingFree T = true)
    (hw : s.waiting T = none) : Inv groupIdx txns (s.setPc i X (.visit rest)) := by
  obtain ⟨hp, hin⟩ := idle_of_none hi hw
  refine inv_visit hi h (by nofun) rfl (by nofun) (fun _ _ => rfl) ?_
  refine .idle hw (waitingFree_iff.mp hfree).1 ?_ (fun hfin Y hpend => ?_) hin
  · rintro ⟨Y, r, rest', hmem, hr⟩
    exact nomatch (buffering_visit hi h hfree hmem hr).2
  · exact hp hfin Y ((pending_visit hi h (by nofun) rfl Y).mp hpend).2

theorem awaits_visit (hpc : pc' ≠ .start) (hrest : pc'.rest = rest) {deps : List Digest} (ha : Awaits s T deps ds) :
    Awaits (s.threadStep i X pc' w s.dependents s.resumed) T deps (ds.filter (· ≠ X)) where
  pending := fun Y => by
    rw [pending_visit hi h hpc hrest, ha.pending, mem_filter, decide_eq_true_iff]
    exact and_comm
  mem := fun Y hY => ha.mem Y (mem_filter.mp hY).1
  covered := fun Y hY => by
    rcases ha.covered Y hY with hmem | hfin
    · by_cases hYX : Y = X
      · subst hYX
        exact .inr (hi.finished Y _ (mem_finishing h))
      · exact .inl (mem_filter.mpr ⟨hmem, decide_eq_true hYX⟩)
    · exact .inr hfin

theorem inv_still (hfree : s.waitingFree T = true) (hw : s.waiting T = some ds) (hne : ds.filter (· ≠ X) ≠ []) :
    Inv groupIdx txns
      ({ s with waiting := update s.waiting T (some (ds.filter (· ≠ X))) }.setPc i X (.visit rest)) := by
  obtain ⟨-, ha, hres⟩ := plain_of_free hi hfree hw
  refine inv_visit hi h (by nofun) rfl (by nofun) (fun U hU => update_of_ne hU ..) ?_
  refine .plain (update_self ..) (fun m hm => ?_) ?_ hne (awaits_visit hi h (by nofun) rfl ha) hres
  · have hm' : s.managing T = some m := hm
    rw [(waitingFree_iff.mp hfree).1] at hm'
    cases hm'
  · rintro ⟨Y, r, rest', hmem, hr⟩
    exact nomatch (buffering_visit hi h hfree hmem hr).2

end

theorem right_resumption (hfin : ∀ Y ∈ localDigests groupIdx (txns T).depSet, s.finished Y = true) :
    (s.resumption groupIdx txns T).Right groupIdx txns := by
  refine ⟨fun Y hY => ?_, fun hc hab => ?_⟩
  · have := hfin Y hY
    rwa [finished, Bool.or_eq_true] at this
  have hc' : s.committed T = false := hc
  have hab' : s.aborted T = false := hab
  have hres : (s.resumption groupIdx txns T).result =
      checkDependencies groupIdx s.committed (txns T).timestamp (txns T).depSet := by
    simp [resumption, hc', hab']
  rw [hres]
  exact checkDependencies_iff s.committed (txns T).timestamp (txns T).depSet

theorem inv_last (hi : Inv groupIdx txns s)
    (h : s.finishing[i]? = some (X, .visit (T :: rest))) (hfree : s.waitingFree T = true)
    (hw : s.waiting T = some ds) (heq : ds.filter (· ≠ X) = []) : Inv groupIdx txns
      ({ s with waiting := update s.waiting T (some []) }.setPc i X
        (.buffer (s.resumption groupIdx txns T) rest)) := by
  obtain ⟨-, ha, hres⟩ := plain_of_free hi hfree hw
  have ha' : ∀ {w : Digest → Option (List Digest)}, Awaits (s.threadStep i X
      (.buffer (s.resumption groupIdx txns T) rest) w s.dependents s.resumed) T
        (localDigests groupIdx (txns T).depSet) [] := by
    rw [← heq]
    exact awaits_visit hi h (by nofun) rfl ha
  have hfin : ∀ Y ∈ localDigests groupIdx (txns T).depSet, s.finished Y = true := fun Y hY =>
    ((ha' (w := s.waiting)).covered Y hY).resolve_left nofun
  refine inv_visit hi h (by nofun) rfl (by rintro U hU ⟨⟩; exact hU rfl)
    (fun U hU => update_of_ne hU ..) ?_
  refine .buffer (update_self ..) (waitingFree_iff.mp hfree).1
    ((mem_threadStep hi h).mpr (.inl ⟨rfl, rfl⟩)) rfl ?_ ha' (right_resumption hfin) hres
  exact fun Y r rest' hmem hr => (buffering_visit hi h hfree hmem hr).1

theorem inv_buffered (hi : Inv groupIdx txns s) {r : Resumption} (h : s.finishing[i]? = some (X, .buffer r rest)) :
    Inv groupIdx txns ({ s with
      waiting := update s.waiting r.txn none
      resumed := s.resumed ++ [r] }.setPc i X (.visit rest)) := by
  have hX := mem_finishing h
  -- the entry is the one that the transaction is in
  obtain ⟨hm, huniq, ha, hright, hres⟩ : s.managing r.txn = none ∧
      (∀ Y r' rest', (Y, .buffer r' rest') ∈ s.finishing → r'.txn = r.txn → Y = X) ∧
      Awaits s r.txn (localDigests groupIdx (txns r.txn).depSet) [] ∧ r.Right groupIdx txns ∧
      r.txn ∉ s.resumed.map txn := by
    have hb : Buffering s r.txn := ⟨X, r, rest, hX, rfl⟩
    cases hi.txn r.txn with
    | idle hw' hm' hb' hp hin | fresh hw' hm' hb' hdeps ha hres hin | plain hw' hm' hb' hne ha hres =>
      exact absurd hb hb'
    | buffer hw' hm' hmem hr huniq ha hright hres =>
      obtain rfl := huniq X r rest hX rfl
      cases eq_of_mem_of_nodup hi.keys hmem hX
      exact ⟨hm', huniq, ha, hright, hres⟩
  have hpend : ∀ {U Y : Digest}, Pending (s.threadStep i X (.visit rest) (update s.waiting r.txn none)
      s.dependents (s.resumed ++ [r])) Y U ↔ Pending s Y U := by
    intro U Y
    rw [pending_threadStep hi h (by nofun) fun _ _ => rfl]
    by_cases hY : Y = X
    · subst hY
      rw [pending_of_mem hi hX]
      simp [CheckPc.rest]
    · simp [hY]
  have hnodup : rest.Nodup := hi.rests X (.buffer r rest) hX
  refine inv_threadStep hi h hi.lists hnodup (fun U => ?_) ?_ ?_
  · by_cases hU : U = r.txn
    · subst hU
      refine .idle (update_self ..) hm ?_ (fun _ Y hY => ?_) fun _ => .inr (by simp [threadStep, setPc])
      · rintro ⟨Y, r', rest', hmem, hr'⟩
        rcases (mem_threadStep hi h).mp hmem with ⟨-, heq⟩ | ⟨hne, hmem'⟩
        · cases heq
        · exact hne (huniq Y r' rest' hmem' hr')
      · exact nomatch (ha.pending Y).mp (hpend.mp hY)
    · refine (hi.txn U).frame (frame_threadStep hi h (by nofun) (fun _ _ => rfl)
        (update_of_ne hU ..) ?_ (fun heq => hU (Option.some.inj heq).symm) nofun ?_)
      · simp [hU]
      · rw [pending_of_mem hi hX]
        simp [CheckPc.rest]
  · intro r' hr'
    rcases mem_append.mp hr' with hr' | hr'
    · exact hi.right r' hr'
    · rw [mem_singleton] at hr'
      subst hr'
      exact ⟨hright, fun Y hY => (ha.covered Y hY).resolve_left nofun⟩
  · rw [map_append]
    refine nodup_append.mpr ⟨hi.once, nodup_singleton _, ?_⟩
    rintro U hU V hV rfl
    rw [map_singleton, mem_singleton] at hV
    exact hres (hV ▸ hU)

theorem inv_cleaned (hi : Inv groupIdx txns s) (h : s.finishing[i]? = some (X, .clean))
    (hfree : s.waitingFree X = true) :
    Inv groupIdx txns ({ s with waiting := update s.waiting X none }.setPc i X .done) := by
  have hfin : s.finished X = true := hi.finished X _ (mem_finishing h)
  refine inv_threadStep hi h hi.lists nodup_nil (fun U => ?_) hi.right hi.once
  by_cases hU : U = X
  · subst hU
    refine .idle (update_self ..) (waitingFree_iff.mp hfree).1 ?_ (fun hfin' => ?_) fun _ => .inl hfin
    · rintro ⟨Y, r, rest, hmem, hr⟩
      exact nomatch (buffering_visit hi h hfree hmem hr).2
    · have hfin'' : s.finished U = false := hfin'
      rw [hfin] at hfin''
      cases hfin''
  · refine (hi.txn U).frame (frame_threadStep hi h (by nofun) (fun _ _ => rfl)
      (update_of_ne hU ..) Iff.rfl nofun nofun ?_)
    rw [pending_of_mem hi (mem_finishing h)]
    simp [CheckPc.rest]

section Runs

variable (groupIdx) (txns)

/-- Calls that do not come in each other's way: no Phase1 meets a buffered WAIT; dependencies are taken in the order of
their digests, each once; a finished transaction does not wait anew or finish again; who is dropped as invalid has no
dependents. -/
def Orderly (s : DepState) : DepEvent → Prop
  | .lockP1 _ => False
  | .manage T _ => (localDigests groupIdx (txns T).depSet).Pairwise (· < ·) ∧
      (s.waiting T = none → s.finished T = false)
  | .commit X => s.committed X = true ∨ s.finished X = false
  | .abort X => s.finished X = false
  | .hardClean X => s.dependents X = none
  | _ => True

variable {groupIdx} {txns} {e : DepEvent}

theorem inv_init : Inv groupIdx txns {} where
  keys := nodup_nil
  finished := fun _ _ h => nomatch h
  notHeld := fun _ => rfl
  lists := fun _ _ h => nomatch h
  rests := fun _ _ h => nomatch h
  sorted := fun _ _ h => nomatch h
  txn := fun _ => .idle rfl rfl (fun ⟨_, _, _, h, _⟩ => nomatch h)
    (fun _ _ h => h.elim (fun ⟨_, _, h, _⟩ => nomatch h) fun ⟨_, h, _⟩ => nomatch h) fun h => nomatch h
  right := fun _ h => nomatch h
  once := nodup_nil

theorem finishes_commit (finishing : List (Digest × CheckPc)) :
    Finishes s { s with committed := update s.committed X true, finishing := finishing } X := by
  refine ⟨fun Y => ?_, rfl, rfl, rfl, rfl, rfl, rfl⟩
  by_cases hY : Y = X
  · simp [finished, hY]
  · simp [finished, hY]

theorem finishes_abort (finishing : List (Digest × CheckPc)) :
    Finishes s { s with aborted := update s.aborted X true, finishing := finishing } X := by
  refine ⟨fun Y => ?_, rfl, rfl, rfl, rfl, rfl, rfl⟩
  by_cases hY : Y = X
  · simp [finished, hY]
  · simp [finished, hY]

/-- Every orderly step keeps the invariant. -/
theorem inv_step (hi : Inv groupIdx txns s) (ho : Orderly groupIdx txns s e)
    (hs : s.step groupIdx txns e = some s') : Inv groupIdx txns s' := by
  cases step_turn hs with
  | lockP1 => exact ho.elim
  | enterNew hfree hp1 hw => exact inv_enterNew hi hfree hw (ho.2 hw) ho.1
  | enterOld hfree hp1 hw => exact inv_enterOld hi hfree hw ho.1
  | @pass T isNew p1 missing dep deps hm h =>
    cases isNew with
    | true => exact inv_pass hi hm h
    | false => exact inv_old hi hm rfl (fun m hm' => by rw [← Option.some.inj hm']) hi.notHeld
  | registerNew hm hg hfree hfin => exact inv_registerNew hi hm hg hfin
  | registerOld hm => exact inv_old hi hm rfl (fun m hm' => by rw [← Option.some.inj hm']) hi.notHeld
  | concludeIdle hm => exact inv_concludeIdle hi hm
  | concludeWait hm hne => exact inv_concludeWait hi hm hne
  | concludeOld hm =>
    have hnone : ∀ m : Managing, none = some m → m.isNew = false := fun m hm' => by cases hm'
    exact inv_old hi hm rfl hnone fun U => update_held (hi.notHeld U) _ _
  | commitAgain h => exact hi
  | commit h =>
    have hX := ho.resolve_left (by rw [h]; exact Bool.false_ne_true)
    exact inv_finish (finishes_commit _) hi hX rfl
  | abort => exact inv_finish (finishes_abort _) hi ho rfl
  | hardClean h => exact inv_hardClean (finishes_abort s.finishing) hi h ho rfl
  | noDependents h hd => exact inv_noDependents hi h hd
  | find h hd hp => exact inv_find hi h hd hp
  | erase h => exact inv_erase hi h
  | absent h hfree hw => exact inv_absent hi h hfree hw
  | still h hfree hw hne => exact inv_still hi h hfree hw hne
  | last h hfree hw heq => exact inv_last hi h hfree hw heq
  | buffered h hp1 => exact inv_buffered hi h
  | cleaned h hfree => exact inv_cleaned hi h hfree

theorem inv_run {es : List DepEvent} (hrun : Run.exec (step groupIdx txns) {} es = some s)
    (hm : Run.Meets (step groupIdx txns) (Orderly groupIdx txns) {} es) : Inv groupIdx txns s :=
  Run.exec_invariant_of_meets inv_step inv_init hm hrun

end Runs

end DepState

end Pequin
