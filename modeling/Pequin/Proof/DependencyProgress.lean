import Mathlib.Algebra.Order.BigOperators.Group.Finset
import Mathlib.Order.WellFoundedSet
import Pequin.Proof.DependencySteps

/-!
# Every wait ends

`CheckDependents` holds the list of a dependency while it waits for the entry of a dependent, and
`ManageDependencies` holds the entry while it waits for the list of a dependency. In orderly runs
the second is registered at lower digests only, so the threads cannot wait for each other in a circle.
So every transaction that waits is resumed once its dependencies have finished (`dependency_wait`).
-/

namespace Pequin

open DepState Function List

variable {groupIdx : Nat} {txns : Digest → Transaction} {s s' : DepState} {X T : Digest} {e : DepEvent}
  {pc : CheckPc} {i : Nat}

namespace DepState

section Progress

variable (groupIdx) (txns)

def Blocked (s : DepState) : Prop := ∀ e : DepEvent, e.internal = true → s.step groupIdx txns e = none

/-- No thread has a step left. -/
structure Settled (s : DepState) : Prop where
  managing : ∀ T, s.managing T = none
  done : ∀ X pc, (X, pc) ∈ s.finishing → pc = .done

variable {groupIdx} {txns}

theorem Blocked.check (hb : Blocked groupIdx txns s) (h : (X, pc) ∈ s.finishing) :
    ∃ i, s.finishing[i]? = some (X, pc) ∧ ∀ order, s.check groupIdx txns i order = none := by
  obtain ⟨i, hi⟩ := mem_iff_getElem?.mp h
  exact ⟨i, hi, fun order => hb (.check i order) rfl⟩

section

variable (hi : Inv groupIdx txns s) (hb : Blocked groupIdx txns s)
include hi hb

/-- A thread that can go no further in its list waits for the entry of the next dependent. -/
theorem Blocked.visiting (h : (X, pc) ∈ s.finishing) : pc = .done ∨ pc = .clean ∧ s.waitingFree X = false ∨
    ∃ T rest, pc = .visit (T :: rest) ∧ s.waitingFree T = false := by
  obtain ⟨i, hi', hcheck⟩ := hb.check h
  cases pc with
  | start =>
    cases hd : s.dependents X with
    | none => simpa [DepState.check, hi', hd] using hcheck []
    | some l => simpa [DepState.check, hi', hd] using hcheck l
  | visit rest =>
    cases rest with
    | nil => simpa [DepState.check, hi'] using hcheck []
    | cons T rest =>
      refine .inr (.inr ⟨T, rest, rfl, ?_⟩)
      by_contra hfree
      rw [Bool.not_eq_false] at hfree
      have hnone := hcheck []
      simp only [DepState.check, hi', hfree, if_true] at hnone
      split at hnone
      · cases hnone
      · split at hnone <;> cases hnone
  | buffer r rest => simpa [DepState.check, hi', hi.notHeld] using hcheck []
  | clean =>
    refine .inr (.inl ⟨rfl, ?_⟩)
    by_contra hfree
    simpa [DepState.check, hi', hfree] using hcheck []
  | done => exact .inl rfl

theorem Blocked.not_buffering : ¬Buffering s T := by
  rintro ⟨X, r, rest, hmem, -⟩
  rcases hb.visiting hi hmem with h | ⟨h, -⟩ | ⟨_, _, h, -⟩ <;> cases h

theorem Blocked.managing (h : s.waitingFree T = false) : ∃ m, s.managing T = some m := by
  refine Option.ne_none_iff_exists'.mp fun hm => ?_
  rw [waitingFree_iff.mpr ⟨hm, hb.not_buffering hi⟩] at h
  cases h

/-- A call that can go no further waits for the list of the next dependency, which a visitor holds. -/
theorem Blocked.registering {m : Managing} (hm : s.managing T = some m) :
    ∃ p1 missing dep deps U rest, m = ⟨true, p1, missing, dep :: deps⟩ ∧ dep.involvedGroup = groupIdx ∧
      (dep.preparedTxnDigest, CheckPc.visit (U :: rest)) ∈ s.finishing := by
  obtain ⟨isNew, p1, missing, deps⟩ := m
  cases deps with
  | nil =>
    have hnone : s.conclude T = none := hb (.conclude T) rfl
    simp [conclude, hm] at hnone
  | cons dep deps =>
    have hnone : s.register groupIdx T = none := hb (.register T) rfl
    simp only [register, hm] at hnone
    split at hnone
    · cases hnone
    rename_i hg
    rw [not_not] at hg
    split at hnone
    · rename_i hfree
      rw [Bool.and_eq_true, Bool.not_eq_true'] at hfree
      obtain ⟨rfl, hheld⟩ := hfree
      obtain ⟨pc, hmem, hpc⟩ : ∃ pc, (dep.preparedTxnDigest, pc) ∈ s.finishing ∧ pc.holds = true := by
        by_contra hno
        push Not at hno
        rw [dependentsFree_iff.mpr fun pc hmem => Bool.not_eq_true _ ▸ hno pc hmem] at hheld
        cases hheld
      rcases hb.visiting hi hmem with rfl | ⟨rfl, -⟩ | ⟨U, rest, rfl, -⟩
      · cases hpc
      · cases hpc
      · exact ⟨p1, missing, dep, deps, U, rest, rfl, hg, hmem⟩
    · split at hnone <;> cases hnone

end

/-- Who visits a call is below the dependencies that it has yet to take. -/
theorem lt_of_visit (hi : Inv groupIdx txns s) {rest : List Digest}
    (h : (X, CheckPc.visit (T :: rest)) ∈ s.finishing) {p1 : Bool} {missing : List Digest} {dep : Dependency}
    {deps : List Dependency} (hm : s.managing T = some ⟨true, p1, missing, dep :: deps⟩)
    (hg : dep.involvedGroup = groupIdx) : X < dep.preparedTxnDigest := by
  obtain ⟨pre, hdeps, -, -, ha, -⟩ := fresh_of_managing hi hm
  have hmem : X ∈ localDigests groupIdx pre := by
    refine ha.mem X ((ha.pending X).mp ((pending_of_mem hi h).mpr (.inr ?_)))
    exact mem_cons_self
  have hsorted := hi.sorted T _ hm
  rw [hdeps, localDigests_append, localDigests_cons_of_eq hg] at hsorted
  exact (pairwise_append.mp hsorted).2.2 X hmem _ mem_cons_self

/-- Where no thread can go on, all are done: a visitor waits for a call, and that for a visitor of a higher digest. -/
theorem settled_of_blocked (hi : Inv groupIdx txns s) (hb : Blocked groupIdx txns s) : Settled s := by
  let visitors : Set Digest := {X | ∃ T rest, (X, CheckPc.visit (T :: rest)) ∈ s.finishing}
  have hfinite : visitors.Finite := by
    refine (finite_toSet (s.finishing.map Prod.fst)).subset ?_
    rintro X ⟨T, rest, hmem⟩
    exact mem_map.mpr ⟨_, hmem, rfl⟩
  have hstrict : IsStrictOrder Digest (· > ·) :=
    { irrefl := fun a h => List.lt_irrefl a h
      trans := fun _ _ _ h h' => List.lt_trans h' h }
  have hhigher : ∀ X ∈ visitors, ∃ Y ∈ visitors, Y > X := by
    rintro X ⟨T, rest, hmem⟩
    have hheld : s.waitingFree T = false := by
      rcases hb.visiting hi hmem with h | ⟨h, -⟩ | ⟨T', rest', h, hfree⟩
      · cases h
      · cases h
      · cases h
        exact hfree
    obtain ⟨m, hm⟩ := hb.managing hi hheld
    obtain ⟨p1, missing, dep, deps, U, rest', rfl, hg, hmem'⟩ := hb.registering hi hm
    exact ⟨_, ⟨U, rest', hmem'⟩, lt_of_visit hi hmem hm hg⟩
  have hnone : ∀ X, X ∉ visitors := fun X hX =>
    hfinite.wellFoundedOn.induction (r := (· > ·)) (P := fun _ => False) hX fun Y hY ih => by
      obtain ⟨Z, hZ, hlt⟩ := hhigher Y hY
      exact ih Z hZ hlt
  have hidle : ∀ T, s.managing T = none := by
    intro T
    by_contra hm
    obtain ⟨m, hm⟩ := Option.ne_none_iff_exists'.mp hm
    obtain ⟨-, -, dep, -, U, rest, -, -, hmem⟩ := hb.registering hi hm
    exact hnone _ ⟨U, rest, hmem⟩
  refine ⟨hidle, fun X pc hmem => ?_⟩
  rcases hb.visiting hi hmem with h | ⟨-, hfree⟩ | ⟨T, rest, rfl, -⟩
  · exact h
  · rw [waitingFree_iff.mpr ⟨hidle X, hb.not_buffering hi⟩] at hfree
    cases hfree
  · exact absurd ⟨T, rest, hmem⟩ (hnone X)

end Progress

/-! ## No thread goes on forever -/

theorem sum_map_set {α : Type*} (f : α → Nat) {l : List α} {a : α} (b : α) (h : l[i]? = some a) :
    ((l.set i b).map f).sum + f a = (l.map f).sum + f b := by
  induction l generalizing i with
  | nil => simp at h
  | cons c l ih =>
    cases i with
    | zero =>
      simp only [List.getElem?_cons_zero, Option.some.injEq] at h
      subst h
      simp only [set_cons_zero, map_cons, sum_cons]
      omega
    | succ i =>
      have := ih (i := i) (by simpa using h)
      simp only [set_cons_succ, map_cons, sum_cons]
      omega

def startsLeft : CheckPc → Nat
  | .start => 1
  | _ => 0

def stepsLeft : CheckPc → Nat
  | .start => 0
  | .visit rest => 2 * rest.length + 2
  | .buffer _ rest => 2 * rest.length + 3
  | .clean => 1
  | .done => 0

def callsLeft : Option Managing → Nat
  | none => 0
  | some m => m.deps.length + 1

/-- The threads that have no list yet, and the steps of the others, with the calls for `F`. -/
def workLeft (F : Finset Digest) (s : DepState) : ℕ ×ₗ ℕ :=
  toLex ((s.finishing.map fun p => startsLeft p.2).sum,
    ∑ T ∈ F, callsLeft (s.managing T) + (s.finishing.map fun p => stepsLeft p.2).sum)

section Termination

variable (groupIdx) (txns)

def InternalStep (s' s : DepState) : Prop :=
  ∃ e : DepEvent, e.internal = true ∧ s.step groupIdx txns e = some s'

variable {groupIdx} {txns} {F : Finset Digest}

theorem Inv.not_underP1 (hi : Inv groupIdx txns s) {p1 : Bool}
    (hp1 : p1 = true → s.heldP1 T = true) (h : p1 = true) : False := by
  have hheld := hp1 h
  rw [hi.notHeld] at hheld
  cases hheld

theorem workLeft_call (hT : T ∈ F) {m : Option Managing}
    (hm : s'.managing = update s.managing T m) (hf : s'.finishing = s.finishing)
    (hlt : callsLeft m < callsLeft (s.managing T)) : workLeft F s' < workLeft F s := by
  have hsum : ∑ U ∈ F, callsLeft (s'.managing U) < ∑ U ∈ F, callsLeft (s.managing U) := by
    refine Finset.sum_lt_sum (fun U _ => ?_) ⟨T, hT, ?_⟩
    · by_cases hU : U = T
      · subst hU
        rw [hm, update_self]
        exact hlt.le
      · rw [hm, update_of_ne hU]
    · rw [hm, update_self]
      exact hlt
  rw [workLeft, workLeft, hf]
  refine Prod.Lex.toLex_lt_toLex.mpr (.inr ⟨rfl, ?_⟩)
  omega

theorem workLeft_check {pc pc' : CheckPc} (h : s.finishing[i]? = some (X, pc))
    (hm : s'.managing = s.managing) (hf : s'.finishing = s.finishing.set i (X, pc'))
    (hlt : startsLeft pc' < startsLeft pc ∨ startsLeft pc' = startsLeft pc ∧ stepsLeft pc' < stepsLeft pc) :
    workLeft F s' < workLeft F s := by
  have hstarts := sum_map_set (fun p : Digest × CheckPc => startsLeft p.2) (X, pc') h
  have hsteps := sum_map_set (fun p : Digest × CheckPc => stepsLeft p.2) (X, pc') h
  rw [workLeft, workLeft, hf, hm]
  refine Prod.Lex.toLex_lt_toLex.mpr ?_
  dsimp only at hstarts hsteps ⊢
  rcases hlt with hlt | ⟨heq, hlt⟩
  · left
    omega
  · right
    constructor <;> omega

theorem workLeft_lt (hi : Inv groupIdx txns s) (hF : ∀ T, T ∉ F → s.managing T = none)
    (h : InternalStep groupIdx txns s' s) : workLeft F s' < workLeft F s := by
  obtain ⟨e, hint, hs⟩ := h
  have hmem : ∀ {T : Digest} {m : Managing}, s.managing T = some m → T ∈ F := fun {T m} hm => by
    by_contra hT
    rw [hF T hT] at hm
    cases hm
  cases step_turn hs with
  | enterNew hfree hp1 hw | enterOld hfree hp1 hw => cases hi.not_underP1 hp1 hint
  | pass hm h | registerNew hm hg hfree hfin | registerOld hm =>
    exact workLeft_call (hmem hm) rfl rfl (by rw [hm]; exact Nat.lt_succ_self _)
  | concludeIdle hm | concludeWait hm hne | concludeOld hm =>
    exact workLeft_call (hmem hm) rfl rfl (by rw [hm]; exact Nat.zero_lt_succ _)
  | noDependents h hd | find h hd hp => exact workLeft_check h rfl rfl (.inl Nat.zero_lt_one)
  | erase h => exact workLeft_check h rfl rfl (.inr ⟨rfl, Nat.lt_succ_self _⟩)
  | absent h hfree hw | still h hfree hw hne | last h hfree hw heq =>
    refine workLeft_check h rfl rfl (.inr ⟨rfl, ?_⟩)
    simp only [stepsLeft, length_cons]
    omega
  | buffered h hp1 => exact workLeft_check h rfl rfl (.inr ⟨rfl, Nat.lt_succ_self _⟩)
  | cleaned h hfree => exact workLeft_check h rfl rfl (.inr ⟨rfl, Nat.zero_lt_one⟩)
  | _ => cases hint

def caller : DepEvent → Option Digest
  | .lockP1 T => some T
  | .manage T _ => some T
  | _ => none

theorem managing_step (hs : s.step groupIdx txns e = some s')
    (hT : s.managing T = none) (hne : caller e ≠ some T) : s'.managing T = none := by
  have hupdate : ∀ {U : Digest} {m₀ : Managing} (m : Option Managing), s.managing U = some m₀ →
      update s.managing U m T = none := by
    intro U m₀ m hm
    rw [update_of_ne, hT]
    rintro rfl
    rw [hT] at hm
    cases hm
  have hcall : ∀ {U : Digest} (m : Option Managing), caller e = some U → update s.managing U m T = none := by
    intro U m hcall
    rw [update_of_ne, hT]
    rintro rfl
    exact hne hcall
  cases step_turn hs with
  | enterNew hfree hp1 hw | enterOld hfree hp1 hw => exact hcall _ rfl
  | pass hm h | registerNew hm hg hfree hfin | registerOld hm | concludeIdle hm | concludeWait hm hne
  | concludeOld hm => exact hupdate _ hm
  | _ => exact hT

theorem managing_finite (h : ∃ F : Finset Digest, ∀ T, T ∉ F → s.managing T = none)
    (hs : s.step groupIdx txns e = some s') : ∃ F : Finset Digest, ∀ T, T ∉ F → s'.managing T = none := by
  obtain ⟨F, hF⟩ := h
  refine ⟨F ∪ (caller e).toFinset, fun T hT => ?_⟩
  rw [Finset.mem_union, not_or, Option.mem_toFinset] at hT
  exact managing_step hs (hF T hT.1) hT.2

theorem caller_internal (hi : Inv groupIdx txns s) (hint : e.internal = true)
    (hs : s.step groupIdx txns e = some s') : caller e = none := by
  cases e with
  | manage T p1 =>
    have hp1 : p1 = true := hint
    subst hp1
    have hnone : s.step groupIdx txns (.manage T true) = none := by
      simp [step, manage, hi.notHeld]
    rw [hnone] at hs
    cases hs
  | lockP1 T => cases hint
  | _ => rfl

theorem orderly_internal (hint : e.internal = true) (hcall : caller e = none) : Orderly groupIdx txns s e := by
  cases e with
  | manage T p1 => cases hcall
  | register T => trivial
  | conclude T => trivial
  | check i order => trivial
  | _ => cases hint

/-- The threads cannot go on forever. -/
theorem acc_internal (hi : Inv groupIdx txns s) (hfin : ∃ F : Finset Digest, ∀ T, T ∉ F → s.managing T = none) :
    Acc (InternalStep groupIdx txns) s := by
  obtain ⟨F, hF⟩ := hfin
  have hacc : ∀ (w : ℕ ×ₗ ℕ) (s : DepState), workLeft F s = w → Inv groupIdx txns s →
      (∀ T, T ∉ F → s.managing T = none) → Acc (InternalStep groupIdx txns) s := by
    intro w
    induction w using WellFoundedLT.induction with
    | ind w ih =>
      rintro s rfl hi hF
      refine Acc.intro s fun s' hstep => ?_
      have hlt := workLeft_lt hi hF hstep
      obtain ⟨e, hint, hs⟩ := hstep
      have hcall := caller_internal hi hint hs
      refine ih _ hlt s' rfl (inv_step hi (orderly_internal hint hcall) hs) fun T hT => ?_
      exact managing_step hs (hF T hT) (by rw [hcall]; exact nofun)
  exact hacc _ s rfl hi hF

end Termination

/-! ## Waits end once -/

theorem resumed_of_settled (hi : Inv groupIdx txns s) (hset : Settled s) (hT : T ∈ s.waited)
    (hfin : s.finished T = false) (hdeps : ∀ X ∈ localDigests groupIdx (txns T).depSet, s.finished X = true) :
    T ∈ s.resumed.map Resumption.txn := by
  cases hi.txn T with
  | idle hw hm hb hp hin =>
    refine (hin hT).resolve_left fun h => ?_
    rw [hfin] at h
    cases h
  | fresh hw hm hb hdeps' ha hres hin =>
    rw [hset.managing] at hm
    cases hm
  | plain hw hm hb hne ha hres =>
    obtain ⟨X, hX⟩ := exists_mem_of_ne_nil _ hne
    have hXfin := hdeps X (ha.mem X hX)
    rcases (ha.pending X).mpr hX with ⟨hopen | hstart, -⟩ | ⟨pc, hmem, hrest⟩
    · rw [hXfin] at hopen
      cases hopen
    · cases hset.done X _ hstart
    · cases hset.done X pc hmem
      cases hrest
  | buffer hw hm hmem hr huniq ha hright hres => cases hset.done _ _ hmem

/-- Orderly runs: the threads come to an end; a transaction is resumed at most once, after its dependencies have
finished, with COMMIT just if all have committed and none is above it; and where no thread can go on, each that waited
for finished ones has been resumed. -/
theorem dependency_wait (groupIdx : Nat) (txns : Digest → Transaction) (es : List DepEvent) (s : DepState)
    (hrun : Run.exec (DepState.step groupIdx txns) {} es = some s)
    (hm : Run.Meets (DepState.step groupIdx txns) (Orderly groupIdx txns) {} es) : Acc (InternalStep groupIdx txns) s ∧
    (∀ T, (s.resumed.map Resumption.txn).count T ≤ 1) ∧ (∀ r ∈ s.resumed, r.Right groupIdx txns) ∧
    (Blocked groupIdx txns s → ∀ T ∈ s.waited, s.finished T = false →
      (∀ X ∈ localDigests groupIdx (txns T).depSet, s.finished X = true) →
        (s.resumed.map Resumption.txn).count T = 1) := by
  have hi : Inv groupIdx txns s := inv_run hrun hm
  have hfinite : ∃ F : Finset Digest, ∀ T, T ∉ F → s.managing T = none :=
    Run.exec_invariant (P := fun s => ∃ F : Finset Digest, ∀ T, T ∉ F → s.managing T = none)
      managing_finite ⟨∅, fun _ _ => rfl⟩ hrun
  refine ⟨acc_internal hi hfinite, fun T => nodup_iff_count_le_one.mp hi.once T,
    fun r hr => (hi.right r hr).1, fun hb T hT hfin hdeps => ?_⟩
  exact count_eq_one_of_mem hi.once (resumed_of_settled hi (settled_of_blocked hi hb) hT hfin hdeps)

instance Orderly.decidable (s : DepState) : ∀ e, Decidable (Orderly groupIdx txns s e)
  | .lockP1 _ => .isFalse id
  | .manage _ _ => inferInstanceAs (Decidable (_ ∧ _))
  | .commit _ => inferInstanceAs (Decidable (_ ∨ _))
  | .abort _ => inferInstanceAs (Decidable (_ = _))
  | .hardClean _ => inferInstanceAs (Decidable (_ = _))
  | .register _ => .isTrue trivial
  | .conclude _ => .isTrue trivial
  | .check _ _ => .isTrue trivial

def txnsOf (deps : Digest → List Digest) (d : Digest) : Transaction :=
  ⟨1, 1, [0], [], [], (deps d).map fun X => ⟨X, ⟨5, 1⟩, 0⟩, ⟨10, 1⟩, [], [], [], none⟩

def oneDependency : Digest → Transaction := txnsOf fun d => if d = [2] then [[1]] else []

def oneWait : List DepEvent :=
  [.manage [2] false, .register [2], .conclude [2], .commit [1], .check 0 [[2]], .check 0 [], .check 0 []]

theorem dependency_wait_oneDependency : Run.Meets (DepState.step 0 oneDependency) (Orderly 0 oneDependency) {} oneWait ∧
    ∃ s, Run.exec (DepState.step 0 oneDependency) {} oneWait = some s ∧
      s.resumed.map (fun r => (r.txn, r.result)) = [([2], .commit)] ∧
      ∀ T, (s.resumed.map Resumption.txn).count T ≤ 1 := by
  have hm : Run.Meets (step 0 oneDependency) (Orderly 0 oneDependency) {} oneWait := by decide
  have hany : (Run.exec (step 0 oneDependency) {} oneWait).any
      (fun s => s.resumed.map (fun r => (r.txn, r.result)) = [([2], .commit)]) = true := by decide
  obtain ⟨s, hrun, hres⟩ := Run.exec_of_any hany
  exact ⟨hm, s, hrun, of_decide_eq_true hres, (dependency_wait 0 oneDependency oneWait s hrun hm).2.1⟩

/-! ## Threads that wait for each other -/

theorem uncalled_step (h : s.managing T = none ∧ s.heldP1 T = false) (hne : caller e ≠ some T)
    (hs : s.step 0 txns e = some s') : s'.managing T = none ∧ s'.heldP1 T = false := by
  refine ⟨managing_step hs h.1 hne, ?_⟩
  cases step_turn hs with
  | @lockP1 U =>
    have hU : T ≠ U := fun heq => hne (congrArg some heq.symm)
    simp [update_of_ne hU, h.2]
  | concludeIdle hm | concludeWait hm hne | concludeOld hm => exact update_held h.2 _ _
  | _ => exact h.2

/-- No thread can go on, in the calls for the transactions of `ts` and in `CheckDependents`. -/
def stuck (txns : Digest → Transaction) (ts : List Digest) (s : DepState) : Bool :=
  (ts.all fun T => (s.register 0 T).isNone && (s.conclude T).isNone && (s.manage txns T true).isNone) &&
    (List.range s.finishing.length).all fun i =>
      s.finishing[i]?.all (fun p => startsLeft p.2 == 0) && (s.check 0 txns i []).isNone

theorem check_order (h : ∀ p, s.finishing[i]? = some p → startsLeft p.2 = 0) (order : List Digest) :
    s.check 0 txns i order = s.check 0 txns i [] := by
  rw [DepState.check, DepState.check]
  cases hi : s.finishing[i]? with
  | none => rfl
  | some p =>
    obtain ⟨X, pc⟩ := p
    cases pc with
    | start => cases h _ hi
    | visit rest => cases rest <;> rfl
    | _ => rfl

theorem blocked_of_stuck {es : List DepEvent} (hrun : Run.exec (step 0 txns) {} es = some s)
    (h : stuck txns (es.filterMap caller) s = true) : Blocked 0 txns s := by
  rw [stuck, Bool.and_eq_true, all_eq_true, all_eq_true] at h
  obtain ⟨hcalls, hchecks⟩ := h
  have huncalled : ∀ T, T ∉ es.filterMap caller → s.managing T = none ∧ s.heldP1 T = false := by
    intro T hT
    refine Run.exec_invariant_of_meets (P := fun s => s.managing T = none ∧ s.heldP1 T = false)
      (fun hp hok hs => uncalled_step hp hok.2 hs) ⟨rfl, rfl⟩ ((Run.meets_true _ es).and_of_mem fun e he => ?_) hrun
    exact fun hcall => hT (mem_filterMap.mpr ⟨e, he, hcall⟩)
  intro e he
  cases e with
  | manage T p1 =>
    obtain rfl : p1 = true := he
    by_cases hT : T ∈ es.filterMap caller
    · have := hcalls T hT
      simp only [Bool.and_eq_true, Option.isNone_iff_eq_none] at this
      exact this.2
    · simp [step, manage, (huncalled T hT).2]
  | register T =>
    by_cases hT : T ∈ es.filterMap caller
    · have := hcalls T hT
      simp only [Bool.and_eq_true, Option.isNone_iff_eq_none] at this
      exact this.1.1
    · simp [step, register, (huncalled T hT).1]
  | conclude T =>
    by_cases hT : T ∈ es.filterMap caller
    · have := hcalls T hT
      simp only [Bool.and_eq_true, Option.isNone_iff_eq_none] at this
      exact this.1.2
    · simp [step, conclude, (huncalled T hT).1]
  | check i order =>
    by_cases hi : i < s.finishing.length
    · have := hchecks i (mem_range.mpr hi)
      rw [Bool.and_eq_true, Option.isNone_iff_eq_none] at this
      refine (check_order (fun p hp => ?_) order).trans this.2
      simpa [hp] using this.1
    · simp [step, DepState.check, List.getElem?_eq_none (not_lt.mp hi)]
  | _ => cases he

/-- A run ends where no thread can go on and `T` is not resumed, though its dependencies have finished. -/
def Deadlocks (txns : Digest → Transaction) (es : List DepEvent) (T : Digest) : Prop :=
  ∃ s, Run.exec (DepState.step 0 txns) {} es = some s ∧ Blocked 0 txns s ∧
    (∀ X ∈ localDigests 0 (txns T).depSet, s.finished X = true) ∧ T ∉ s.resumed.map Resumption.txn

theorem deadlocks_of_any {es : List DepEvent}
    (h : (Run.exec (step 0 txns) {} es).any (fun s => stuck txns (es.filterMap caller) s &&
      (localDigests 0 (txns T).depSet).all s.finished && !(s.resumed.map Resumption.txn).contains T) = true) :
    Deadlocks txns es T := by
  obtain ⟨s, hrun, hs⟩ := Run.exec_of_any h
  simp only [Bool.and_eq_true, all_eq_true, Bool.not_eq_true', contains_eq_mem, decide_eq_false_iff_not] at hs
  exact ⟨s, hrun, blocked_of_stuck hrun hs.1.1, hs.1.2, hs.2⟩

/-- A Phase1 that has found the WAIT holds the entry in `p1MetaData` that the resuming thread needs, and waits for that
thread. Likewise two calls with opposite orders of dependencies, and one that names a dependency twice. -/
theorem waiting_txn_deadlocks : Deadlocks oneDependency
      [.manage [2] false, .register [2], .conclude [2], .commit [1], .check 0 [[2]], .lockP1 [2], .check 0 []] [2] ∧
    Deadlocks (txnsOf fun d => if d = [3] then [[1], [2]] else if d = [4] then [[2], [1]] else [])
      [.manage [3] false, .manage [4] false, .register [3], .register [4], .commit [1], .commit [2],
        .check 0 [[3]], .check 1 [[4]]] [3] ∧ Deadlocks (txnsOf fun d => if d = [2] then [[1], [1]] else [])
      [.manage [2] false, .register [2], .commit [1], .check 0 [[2]]] [2] :=
  ⟨deadlocks_of_any (by decide), deadlocks_of_any (by decide), deadlocks_of_any (by decide)⟩

end DepState

end Pequin
