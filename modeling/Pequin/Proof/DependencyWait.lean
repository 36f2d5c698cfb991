import Mathlib.Data.List.Nodup
import Pequin.Model.DependencyWait

/-!
# Dependencies and who waits for them

What holds across the two maps of `Model/DependencyWait.lean` while calls of `ManageDependencies` and `CheckDependents`
interleave. `DepTurn` lists what a step can do. `Pending s X T` says that the end of `X` is still to reach `T`: `T` is
in the list of `X`, and the list has not been visited as far as `T`. The invariant is that a transaction is pending at
exactly the dependencies that its wait still names (`Awaits`), whichever thread holds its entry (`TxnInv`). It gives
that a transaction is resumed at most once, on the fate of all its dependencies (`Inv.once`, `Inv.right`).
-/

namespace Pequin

open DepState List Prod Resumption

variable {groupIdx : Nat} {txns : Digest → Transaction} {s s' : DepState} {X T : Digest}

/-! ## Dependencies of the group -/

/-- The digests of the dependencies that a group looks at. -/
def localDigests (groupIdx : Nat) (deps : List Dependency) : List Digest :=
  (deps.filter fun dep => dep.involvedGroup = groupIdx).map Dependency.preparedTxnDigest

theorem localDigests_append (deps deps' : List Dependency) :
    localDigests groupIdx (deps ++ deps') = localDigests groupIdx deps ++ localDigests groupIdx deps' := by
  rw [localDigests, filter_append, map_append]
  rfl

theorem mem_localDigests {deps : List Dependency} :
    X ∈ localDigests groupIdx deps ↔ ∃ dep ∈ deps, dep.involvedGroup = groupIdx ∧ dep.preparedTxnDigest = X := by
  simp [localDigests, and_assoc]

theorem localDigests_cons_of_eq {dep : Dependency} (h : dep.involvedGroup = groupIdx) (deps : List Dependency) :
    localDigests groupIdx (dep :: deps) = dep.preparedTxnDigest :: localDigests groupIdx deps := by
  simp [localDigests, h]

/-- COMMIT just if every dependency has committed and is not above the transaction, and ABSTAIN otherwise. -/
theorem checkDependencies_iff (committed : Digest → Bool) (timestamp : Timestamp) (deps : List Dependency) :
    (checkDependencies groupIdx committed timestamp deps = .commit ↔ ∀ dep ∈ deps, dep.involvedGroup = groupIdx →
        committed dep.preparedTxnDigest = true ∧ dep.preparedTimestamp ≤ timestamp) ∧
    (checkDependencies groupIdx committed timestamp deps ≠ .commit →
      checkDependencies groupIdx committed timestamp deps = .abstain) := by
  induction deps with
  | nil => simp [checkDependencies]
  | cons dep deps ih =>
    rw [checkDependencies]
    by_cases hg : dep.involvedGroup = groupIdx
    · rw [if_neg (not_not_intro hg)]
      by_cases hc : committed dep.preparedTxnDigest = true
      · rw [if_pos hc]
        by_cases ht : timestamp < dep.preparedTimestamp
        · rw [if_pos ht]
          refine ⟨⟨fun h => (nomatch h), fun h => ?_⟩, fun _ => rfl⟩
          exact absurd (h dep mem_cons_self hg).2 (not_le.mpr ht)
        · rw [if_neg ht]
          refine ⟨ih.1.trans ⟨fun h => ?_, fun h => (forall_mem_cons.mp h).2⟩, ih.2⟩
          exact forall_mem_cons.mpr ⟨fun _ => ⟨hc, not_lt.mp ht⟩, h⟩
      · rw [if_neg hc]
        refine ⟨⟨fun h => (nomatch h), fun h => ?_⟩, fun _ => rfl⟩
        exact absurd (h dep mem_cons_self hg).1 hc
    · rw [if_pos hg]
      refine ⟨ih.1.trans ⟨fun h => ?_, fun h => (forall_mem_cons.mp h).2⟩, ih.2⟩
      exact forall_mem_cons.mpr ⟨fun hg' => absurd hg' hg, h⟩

/-- The result is that of `CheckDependencies` on finished dependencies. -/
structure Resumption.Right (groupIdx : Nat) (txns : Digest → Transaction) (r : Resumption) : Prop where
  finished : ∀ X ∈ localDigests groupIdx (txns r.txn).depSet, r.committed X = true ∨ r.aborted X = true
  result : r.committed r.txn = false → r.aborted r.txn = false →
    (r.result = .commit ↔ ∀ dep ∈ (txns r.txn).depSet, dep.involvedGroup = groupIdx →
      r.committed dep.preparedTxnDigest = true ∧ dep.preparedTimestamp ≤ (txns r.txn).timestamp) ∧
    (r.result ≠ .commit → r.result = .abstain)

/-! ## Lists of threads -/

variable {κ α : Type*} {l : List (κ × α)} {i : Nat} {k k' : κ} {a a' b : α}

theorem mem_set_of_nodup (hkeys : (l.map fst).Nodup) (h : l[i]? = some (k, a)) :
    (k', b) ∈ l.set i (k, a') ↔ k' = k ∧ b = a' ∨ k' ≠ k ∧ (k', b) ∈ l := by
  have hi : i < l.length := (List.getElem?_eq_some_iff.mp h).1
  have hkey : ∀ {j : Nat} {c : α}, l[j]? = some (k, c) → j = i := by
    intro j c hj
    have hj' : (l.map fst)[j]? = (l.map fst)[i]? := by rw [List.getElem?_map, List.getElem?_map, hj, h]; rfl
    have hlt : j < (l.map fst).length := by
      rw [length_map]
      exact (List.getElem?_eq_some_iff.mp hj).1
    exact (List.getElem?_inj hlt hkeys).mp hj'
  constructor
  · intro hmem
    obtain ⟨j, hj⟩ := mem_iff_getElem?.mp hmem
    rw [List.getElem?_set] at hj
    split at hj
    · cases hj
      exact .inl ⟨rfl, rfl⟩
    · rename_i hne
      refine .inr ⟨?_, mem_iff_getElem?.mpr ⟨j, hj⟩⟩
      rintro rfl
      exact hne (hkey hj).symm
  · rintro (⟨rfl, rfl⟩ | ⟨hne, hmem⟩)
    · exact mem_iff_getElem?.mpr ⟨i, by rw [List.getElem?_set_self hi]⟩
    obtain ⟨j, hj⟩ := mem_iff_getElem?.mp hmem
    refine mem_iff_getElem?.mpr ⟨j, ?_⟩
    rw [List.getElem?_set_ne ?_, hj]
    rintro rfl
    rw [h, Option.some.injEq, Prod.mk.injEq] at hj
    exact hne hj.1.symm

theorem keys_set (h : l[i]? = some (k, a)) : (l.set i (k, a')).map fst = l.map fst := by
  have hk : (l.map fst)[i]? = some k := by rw [List.getElem?_map, h]; rfl
  obtain ⟨hi, hget⟩ := List.getElem?_eq_some_iff.mp hk
  rw [map_set]
  rw [← hget, set_getElem_self]

theorem eq_of_mem_of_nodup (hkeys : (l.map fst).Nodup) (ha : (k, a) ∈ l) (hb : (k, b) ∈ l) : a = b := by
  have h := inj_on_of_nodup_map hkeys ha hb rfl
  exact (Prod.mk.inj h).2

def CheckPc.rest : CheckPc → List Digest
  | .visit rest => rest
  | .buffer _ rest => rest
  | _ => []

namespace DepState

/-! ## What a step can do -/

section Turns

variable (groupIdx) (txns)

open Function in
/-- The steps of a replica, one by one. -/
inductive DepTurn (s : DepState) : DepEvent → DepState → Prop where
  | lockP1 {T : Digest} : DepTurn s (.lockP1 T) { s with heldP1 := update s.heldP1 T true }
  | enterNew {T : Digest} {p1 : Bool} (hfree : s.waitingFree T = true) (hp1 : p1 = true → s.heldP1 T = true)
      (hw : s.waiting T = none) : DepTurn s (.manage T p1) { s with
        waiting := update s.waiting T (some [])
        managing := update s.managing T (some ⟨true, p1, [], (txns T).depSet⟩) }
  | enterOld {T : Digest} {p1 : Bool} {ds : List Digest} (hfree : s.waitingFree T = true)
      (hp1 : p1 = true → s.heldP1 T = true) (hw : s.waiting T = some ds) : DepTurn s (.manage T p1) { s with
        managing := update s.managing T (some ⟨false, p1, [], (txns T).depSet⟩) }
  | pass {T : Digest} {isNew p1 : Bool} {missing : List Digest} {dep : Dependency} {deps : List Dependency}
      (hm : s.managing T = some ⟨isNew, p1, missing, dep :: deps⟩)
      (h : dep.involvedGroup = groupIdx → s.finished dep.preparedTxnDigest = true) : DepTurn s (.register T) { s with
        managing := update s.managing T (some ⟨isNew, p1, missing, deps⟩) }
  | registerNew {T : Digest} {p1 : Bool} {missing : List Digest} {dep : Dependency} {deps : List Dependency}
      (hm : s.managing T = some ⟨true, p1, missing, dep :: deps⟩) (hg : dep.involvedGroup = groupIdx)
      (hfree : s.dependentsFree dep.preparedTxnDigest = true)
      (hfin : s.finished dep.preparedTxnDigest = false) : DepTurn s (.register T) { s with
        managing := update s.managing T (some ⟨true, p1, missing ++ [dep.preparedTxnDigest], deps⟩)
        dependents := update s.dependents dep.preparedTxnDigest
          (some (((s.dependents dep.preparedTxnDigest).getD []).insert T)) }
  | registerOld {T : Digest} {p1 : Bool} {missing : List Digest} {dep : Dependency} {deps : List Dependency}
      (hm : s.managing T = some ⟨false, p1, missing, dep :: deps⟩) : DepTurn s (.register T) { s with
        managing := update s.managing T (some ⟨false, p1, missing ++ [dep.preparedTxnDigest], deps⟩) }
  | concludeIdle {T : Digest} {p1 : Bool} (hm : s.managing T = some ⟨true, p1, [], []⟩) :
      DepTurn s (.conclude T) { s with
        managing := update s.managing T none
        heldP1 := if p1 then update s.heldP1 T false else s.heldP1
        waiting := update s.waiting T none }
  | concludeWait {T : Digest} {p1 : Bool} {missing : List Digest}
      (hm : s.managing T = some ⟨true, p1, missing, []⟩) (hne : missing ≠ []) : DepTurn s (.conclude T) { s with
        managing := update s.managing T none
        heldP1 := if p1 then update s.heldP1 T false else s.heldP1
        waiting := update s.waiting T (some missing)
        waited := s.waited ++ [T] }
  | concludeOld {T : Digest} {p1 : Bool} {missing : List Digest}
      (hm : s.managing T = some ⟨false, p1, missing, []⟩) : DepTurn s (.conclude T) { s with
        managing := update s.managing T none
        heldP1 := if p1 then update s.heldP1 T false else s.heldP1 }
  | commitAgain {X : Digest} (h : s.committed X = true) : DepTurn s (.commit X) s
  | commit {X : Digest} (h : s.committed X = false) : DepTurn s (.commit X) { s with
        committed := update s.committed X true
        finishing := s.finishing ++ [(X, .start)] }
  | abort {X : Digest} : DepTurn s (.abort X) { s with
        aborted := update s.aborted X true
        finishing := s.finishing ++ [(X, .start)] }
  | hardClean {X : Digest} (h : s.finished X = false) :
      DepTurn s (.hardClean X) { s with aborted := update s.aborted X true }
  | noDependents {i : Nat} {order : List Digest} {X : Digest} (h : s.finishing[i]? = some (X, .start))
      (hd : s.dependents X = none) : DepTurn s (.check i order) (s.setPc i X .clean)
  | find {i : Nat} {order l : List Digest} {X : Digest} (h : s.finishing[i]? = some (X, .start))
      (hd : s.dependents X = some l) (hp : order.Perm l) : DepTurn s (.check i order) (s.setPc i X (.visit order))
  | erase {i : Nat} {order : List Digest} {X : Digest} (h : s.finishing[i]? = some (X, .visit [])) :
      DepTurn s (.check i order)
        ({ s with dependents := update s.dependents X none }.setPc i X .clean)
  | absent {i : Nat} {order rest : List Digest} {X T : Digest}
      (h : s.finishing[i]? = some (X, .visit (T :: rest))) (hfree : s.waitingFree T = true)
      (hw : s.waiting T = none) : DepTurn s (.check i order) (s.setPc i X (.visit rest))
  | still {i : Nat} {order rest ds : List Digest} {X T : Digest}
      (h : s.finishing[i]? = some (X, .visit (T :: rest))) (hfree : s.waitingFree T = true)
      (hw : s.waiting T = some ds) (hne : ds.filter (· ≠ X) ≠ []) : DepTurn s (.check i order)
        ({ s with waiting := update s.waiting T (some (ds.filter (· ≠ X))) }.setPc i X (.visit rest))
  | last {i : Nat} {order rest ds : List Digest} {X T : Digest}
      (h : s.finishing[i]? = some (X, .visit (T :: rest))) (hfree : s.waitingFree T = true)
      (hw : s.waiting T = some ds) (heq : ds.filter (· ≠ X) = []) : DepTurn s (.check i order)
        ({ s with waiting := update s.waiting T (some []) }.setPc i X
          (.buffer (s.resumption groupIdx txns T) rest))
  | buffered {i : Nat} {order rest : List Digest} {X : Digest} {r : Resumption}
      (h : s.finishing[i]? = some (X, .buffer r rest)) (hp1 : s.heldP1 r.txn = false) : DepTurn s (.check i order)
        ({ s with
          waiting := update s.waiting r.txn none
          resumed := s.resumed ++ [r] }.setPc i X (.visit rest))
  | cleaned {i : Nat} {order : List Digest} {X : Digest} (h : s.finishing[i]? = some (X, .clean))
      (hfree : s.waitingFree X = true) :
      DepTurn s (.check i order) ({ s with waiting := update s.waiting X none }.setPc i X .done)

variable {groupIdx} {txns} {e : DepEvent}

theorem manage_turn {p1 : Bool} (h : s.manage txns T p1 = some s') : DepTurn groupIdx txns s (.manage T p1) s' := by
  rw [manage] at h
  split at h
  · rename_i hif
    rw [Bool.and_eq_true, Bool.or_eq_true, Bool.not_eq_true'] at hif
    have hp1 : p1 = true → s.heldP1 T = true := fun hp => hif.2.resolve_left (by rw [hp]; decide)
    cases hw : s.waiting T with
    | none =>
      simp only [hw, Option.isNone_none, if_true, Option.some.injEq] at h
      subst h
      exact .enterNew hif.1 hp1 hw
    | some ds =>
      simp only [hw, Option.isNone_some, Bool.false_eq_true, if_false, Option.some.injEq] at h
      subst h
      exact .enterOld hif.1 hp1 hw
  · cases h

theorem register_turn (h : s.register groupIdx T = some s') : DepTurn groupIdx txns s (.register T) s' := by
  rw [register] at h
  split at h
  · rename_i isNew p1 missing dep deps hm
    dsimp only at h
    split at h
    · rename_i hg
      cases h
      exact .pass hm fun hg' => absurd hg' hg
    rename_i hg
    rw [not_not] at hg
    split at h
    · cases h
    rename_i hfree
    split at h
    · rename_i hfin
      cases h
      exact .pass hm fun _ => hfin
    rename_i hfin
    rw [Bool.not_eq_true] at hfin
    cases isNew with
    | true =>
      cases h
      refine .registerNew hm hg ?_ hfin
      simpa using hfree
    | false =>
      cases h
      exact .registerOld hm
  · cases h

theorem conclude_turn (h : s.conclude T = some s') : DepTurn groupIdx txns s (.conclude T) s' := by
  rw [conclude] at h
  split at h
  · rename_i isNew p1 missing hm
    cases h
    cases isNew with
    | false => exact .concludeOld hm
    | true =>
      cases missing with
      | nil => exact .concludeIdle hm
      | cons X missing => exact .concludeWait hm (cons_ne_nil X missing)
  · cases h

theorem check_turn {order : List Digest} (h : s.check groupIdx txns i order = some s') :
    DepTurn groupIdx txns s (.check i order) s' := by
  rw [check] at h
  split at h
  · cases h
  · rename_i X hi
    split at h
    · rename_i hd
      cases h
      exact .noDependents hi hd
    rename_i l hd
    split at h
    · cases h
      exact .find hi hd ‹_›
    · cases h
  · rename_i X hi
    cases h
    exact .erase hi
  · rename_i X T rest hi
    split at h
    · rename_i hfree
      split at h
      · rename_i hw
        cases h
        exact .absent hi hfree hw
      rename_i ds hw
      dsimp only at h
      split at h
      · rename_i heq
        cases h
        rw [heq]
        exact .last hi hfree hw heq
      · rename_i hne
        cases h
        exact .still hi hfree hw hne
    · cases h
  · rename_i X r rest hi
    split at h
    · cases h
    · rename_i hp1
      cases h
      exact .buffered hi (Bool.not_eq_true _ ▸ hp1)
  · rename_i X hi
    split at h
    · cases h
      exact .cleaned hi ‹_›
    · cases h
  · cases h

theorem step_turn (h : s.step groupIdx txns e = some s') : DepTurn groupIdx txns s e s' := by
  cases e with
  | lockP1 T =>
    simp only [step] at h
    split at h
    · cases h
    · cases h
      exact .lockP1
  | manage T p1 => exact manage_turn h
  | register T => exact register_turn h
  | conclude T => exact conclude_turn h
  | commit X =>
    simp only [step] at h
    split at h
    · cases h
      exact .commitAgain ‹_›
    · rename_i hc
      cases h
      exact .commit (Bool.not_eq_true _ ▸ hc)
  | abort X =>
    cases h
    exact .abort
  | hardClean X =>
    simp only [step] at h
    split at h
    · cases h
    · rename_i hf
      cases h
      exact .hardClean (Bool.not_eq_true _ ▸ hf)
  | check i order => exact check_turn h

end Turns

/-! ## Who is still to be reached -/

/-- The end of `X` is still to reach `T`. -/
def Pending (s : DepState) (X T : Digest) : Prop :=
  (s.finished X = false ∨ (X, CheckPc.start) ∈ s.finishing) ∧ (∃ l, s.dependents X = some l ∧ T ∈ l) ∨
    ∃ pc, (X, pc) ∈ s.finishing ∧ T ∈ pc.rest

def Buffering (s : DepState) (T : Digest) : Prop :=
  ∃ X r rest, (X, CheckPc.buffer r rest) ∈ s.finishing ∧ r.txn = T

theorem waitingFree_iff : s.waitingFree T = true ↔ s.managing T = none ∧ ¬Buffering s T := by
  rw [waitingFree, Bool.and_eq_true, Option.isNone_iff_eq_none, all_eq_true]
  refine and_congr_right fun _ => ⟨?_, fun h p hp => ?_⟩
  · rintro h ⟨X, r, rest, hmem, rfl⟩
    simpa [CheckPc.buffers] using h _ hmem
  obtain ⟨X, pc⟩ := p
  rw [bne_iff_ne]
  intro heq
  cases pc with
  | buffer r rest => exact h ⟨X, r, rest, hp, Option.some.inj heq⟩
  | _ => cases heq

theorem dependentsFree_iff : s.dependentsFree X = true ↔ ∀ pc, (X, pc) ∈ s.finishing → pc.holds = false := by
  rw [dependentsFree, all_eq_true]
  refine ⟨fun h pc hmem => by simpa using h _ hmem, fun h p hp => ?_⟩
  by_cases hX : p.1 = X
  · have := h p.2 (hX ▸ hp)
    simp [this]
  · simp [hX]

/-- The wait of `T`, which has looked at `deps`: it is pending at those in `missing`, and the others have finished. -/
structure Awaits (s : DepState) (T : Digest) (deps missing : List Digest) : Prop where
  pending : ∀ X, Pending s X T ↔ X ∈ missing
  mem : ∀ X ∈ missing, X ∈ deps
  covered : ∀ X ∈ deps, X ∈ missing ∨ s.finished X = true

section Invariant

variable (groupIdx) (txns)

/-- A transaction does not wait, `ManageDependencies` is filling its entry, it waits, or it is about to be resumed. -/
inductive TxnInv (s : DepState) (T : Digest) : Prop where
  | idle (hw : s.waiting T = none) (hm : s.managing T = none) (hb : ¬Buffering s T)
      (hp : s.finished T = false → ∀ X, ¬Pending s X T)
      (hwaited : T ∈ s.waited → s.finished T = true ∨ T ∈ s.resumed.map txn)
  | fresh {p1 : Bool} {missing : List Digest} {pre deps : List Dependency} (hw : s.waiting T = some [])
      (hm : s.managing T = some ⟨true, p1, missing, deps⟩) (hb : ¬Buffering s T)
      (hdeps : (txns T).depSet = pre ++ deps) (ha : Awaits s T (localDigests groupIdx pre) missing)
      (hres : T ∈ s.resumed.map txn → missing = [])
      (hwaited : T ∈ s.waited → s.finished T = true ∨ T ∈ s.resumed.map txn)
  | plain {ds : List Digest} (hw : s.waiting T = some ds) (hm : ∀ m, s.managing T = some m → m.isNew = false)
      (hb : ¬Buffering s T) (hne : ds ≠ [])
      (ha : Awaits s T (localDigests groupIdx (txns T).depSet) ds)
      (hres : T ∉ s.resumed.map txn)
  | buffer {X : Digest} {r : Resumption} {rest : List Digest} (hw : s.waiting T = some [])
      (hm : s.managing T = none) (hmem : (X, .buffer r rest) ∈ s.finishing) (hr : r.txn = T)
      (huniq : ∀ Y r' rest', (Y, .buffer r' rest') ∈ s.finishing → r'.txn = T → Y = X)
      (ha : Awaits s T (localDigests groupIdx (txns T).depSet) []) (hright : r.Right groupIdx txns)
      (hres : T ∉ s.resumed.map txn)

structure Inv (s : DepState) : Prop where
  keys : (s.finishing.map Prod.fst).Nodup
  finished : ∀ X pc, (X, pc) ∈ s.finishing → s.finished X = true
  notHeld : ∀ T, s.heldP1 T = false
  lists : ∀ X l, s.dependents X = some l → l.Nodup
  rests : ∀ X pc, (X, pc) ∈ s.finishing → pc.rest.Nodup
  sorted : ∀ T m, s.managing T = some m → (localDigests groupIdx (txns T).depSet).Pairwise (· < ·)
  txn : ∀ T, TxnInv groupIdx txns s T
  right : ∀ r ∈ s.resumed, r.Right groupIdx txns ∧ ∀ X ∈ localDigests groupIdx (txns r.txn).depSet, s.finished X = true
  once : (s.resumed.map Resumption.txn).Nodup

end Invariant

/-- A step that does not concern `T`. -/
structure Frame (s s' : DepState) (T : Digest) : Prop where
  waiting : s'.waiting T = s.waiting T
  managing : s'.managing T = s.managing T
  buffers : ∀ X r rest, r.txn = T →
    ((X, CheckPc.buffer r rest) ∈ s'.finishing ↔ (X, CheckPc.buffer r rest) ∈ s.finishing)
  pending : ∀ X, Pending s' X T ↔ Pending s X T
  finished : ∀ X, s.finished X = true → s'.finished X = true
  resumed : T ∈ s'.resumed.map txn ↔ T ∈ s.resumed.map txn
  waited : T ∈ s'.waited ↔ T ∈ s.waited

section Frames

theorem Frame.buffering (h : Frame s s' T) : Buffering s' T ↔ Buffering s T :=
  ⟨fun ⟨X, r, rest, hmem, hr⟩ => ⟨X, r, rest, (h.buffers X r rest hr).mp hmem, hr⟩,
    fun ⟨X, r, rest, hmem, hr⟩ => ⟨X, r, rest, (h.buffers X r rest hr).mpr hmem, hr⟩⟩

theorem Awaits.frame {deps missing : List Digest} (ha : Awaits s T deps missing) (h : Frame s s' T) :
    Awaits s' T deps missing :=
  ⟨fun X => (h.pending X).trans (ha.pending X), ha.mem, fun X hX => (ha.covered X hX).imp id (h.finished X)⟩

theorem TxnInv.frame (ht : TxnInv groupIdx txns s T) (h : Frame s s' T) : TxnInv groupIdx txns s' T := by
  have hwaited : (T ∈ s.waited → s.finished T = true ∨ T ∈ s.resumed.map txn) →
      T ∈ s'.waited → s'.finished T = true ∨ T ∈ s'.resumed.map txn := fun hin hmem =>
    (hin (h.waited.mp hmem)).imp (h.finished T) h.resumed.mpr
  cases ht with
  | idle hw hm hb hp hin =>
    refine .idle (h.waiting.trans hw) (h.managing.trans hm) (fun hb' => hb (h.buffering.mp hb')) ?_ (hwaited hin)
    intro hfin X hpend
    refine hp ?_ X ((h.pending X).mp hpend)
    by_contra hne
    rw [h.finished T (Bool.not_eq_false _ ▸ hne)] at hfin
    cases hfin
  | fresh hw hm hb hdeps ha hres hin =>
    exact .fresh (h.waiting.trans hw) (h.managing.trans hm) (fun hb' => hb (h.buffering.mp hb')) hdeps
      (ha.frame h) (fun hmem => hres (h.resumed.mp hmem)) (hwaited hin)
  | plain hw hm hb hne ha hres =>
    exact .plain (h.waiting.trans hw) (fun m hm' => hm m (h.managing.symm.trans hm'))
      (fun hb' => hb (h.buffering.mp hb')) hne (ha.frame h) fun hmem => hres (h.resumed.mp hmem)
  | buffer hw hm hmem hr huniq ha hright hres =>
    refine .buffer (h.waiting.trans hw) (h.managing.trans hm) ((h.buffers _ _ _ hr).mpr hmem) hr ?_
      (ha.frame h) hright fun hmem' => hres (h.resumed.mp hmem')
    exact fun Y r' rest' hmem' hr' => huniq Y r' rest' ((h.buffers Y r' rest' hr').mp hmem') hr'

end Frames

end DepState

end Pequin
