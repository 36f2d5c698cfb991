import Pequin.Proof.Assembly
import Pequin.Proof.Equivocation

/-!
# Certificates built by a client

A client collects the votes of every involved group, and builds a Phase2 or a Writeback from them. The validators
rebuild each vote with the group it is listed under; the client has not looked at the group that is signed in it.
-/

namespace Pequin

open Function Option PendingFB PendingRequest Request Signature

variable {c : Configuration} {digestOf : Transaction → Digest} {txn : Transaction} {m : Sent}

namespace Request

variable {r : Request} {O : Nat → Prop}

section

variable (c digestOf)

def Open (r : Request) (g : Nat) : Prop :=
  (∃ p, r.pendingPhase1s g = some p) ∨ ∃ fb, r.pendingFBs g = some fb ∧ fb.p1 = true

/-- What the shard client of a group has collected in a fallback. -/
structure FBGood (txn : Transaction) (d : Digest) (group : Nat) (fb : PendingFB) : Prop where
  sameTxn : fb.txn = txn
  sameDigest : fb.txnDigest = d
  decisions : fb.Kept (Signature.Logs c txn d group)
  votes : fb.p1 = true → fb.pendingP1.Kept c (Signature.Votes c group d)

/-- What the shard clients have collected, and what was sent. -/
structure Collected (r : Request) : Prop where
  covers : Covers r.txn r.txn.involvedGroups
  phase1s : ∀ g p, r.pendingPhase1s g = some p →
    g ∈ r.txn.involvedGroups ∧ r.fallback = false ∧ p.Kept c (Signature.Votes c g r.txnDigest)
  fbs : ∀ g fb, r.pendingFBs g = some fb →
    g ∈ r.txn.involvedGroups ∧ r.fallback = true ∧ FBGood c r.txn r.txnDigest g fb
  phase2 : ∀ p, r.pendingPhase2 = some p → r.fallback = false ∧
    ∀ g, getLogGroup r.txn r.txnDigest = some g → p.Kept c (Signature.Logs c r.txn r.txnDigest g)
  sent : ∀ m ∈ r.sent, m.Good c digestOf r.txn r.txnDigest

structure GoodAt (O : Nat → Prop) (r : Request) :
    Prop extends Collected c digestOf r where
  waiting : r.active = true → r.req.startedPhase2 = false → r.req.Waiting c r.txn r.txnDigest r.fallback O
  logging : r.active = true → r.pendingPhase2.isSome = true → r.req.startedPhase2 = true ∧ r.req.fast = false ∧
      P1Cert c r.req.decision false r.txn r.txnDigest (r.req.phase2Processing c).p1ReplySigsGrouped
  unlogged : r.active = true → r.req.p2ReplySigsGrouped = []

abbrev Good (r : Request) : Prop :=
  r.GoodAt c digestOf r.Open

end

theorem GoodAt.mono {O' : Nat → Prop} (h : r.GoodAt c digestOf O) (hO : ∀ g, O' g → O g) : r.GoodAt c digestOf O' :=
  { h with waiting := fun ha hs => (h.waiting ha hs).mono hO }

/-! ## What the client does -/

theorem phase2FB_req : (r.phase2FB c).req.startedPhase2 = true ∧
    (r.phase2FB c).req.p2ReplySigsGrouped = r.req.p2ReplySigsGrouped := by
  unfold phase2FB
  simp only
  split <;> exact ⟨rfl, rfl⟩

section

variable (h : r.Collected c digestOf)
include h

theorem Collected.send (hm : m.Good c digestOf r.txn r.txnDigest) :
    ∀ m' ∈ r.sent ++ [m], m'.Good c digestOf r.txn r.txnDigest := by
  intro m' hm'
  rcases List.mem_append.mp hm' with hm' | hm'
  · exact h.sent m' hm'
  · rw [List.mem_singleton.mp hm']
    exact hm

theorem Collected.writeback (hs : Sent.Good c digestOf r.txn r.txnDigest
      (.writeback ⟨r.req.decision, some r.txnDigest, none, r.req.writebackSigs c⟩)) :
    (r.writeback c).GoodAt c digestOf O where
  covers := h.covers
  phase1s := h.phase1s
  fbs _ _ hfb := by cases hfb
  phase2 := h.phase2
  sent := h.send hs
  waiting ha := by cases ha
  logging ha := by cases ha
  unlogged ha := by cases ha

theorem Collected.phase2_good (hf : r.fallback = false)
    (hfast : r.req.fast = false) (hp2 : r.req.p2ReplySigsGrouped = [])
    (hcert : P1Cert c r.req.decision false r.txn r.txnDigest (r.req.phase2Processing c).p1ReplySigsGrouped) :
    (r.phase2 c).GoodAt c digestOf O where
  covers := h.covers
  phase1s := h.phase1s
  fbs := h.fbs
  phase2 p hp := by
    cases hp
    exact ⟨hf, fun _ _ => .new _ _⟩
  sent := h.send hcert
  waiting _ hs := by cases hs
  logging _ _ := by
    refine ⟨rfl, hfast, ?_⟩
    show P1Cert c r.req.decision false r.txn r.txnDigest
      ((r.req.phase2Processing c).phase2Processing c).p1ReplySigsGrouped
    rw [phase2Processing_idem]
    exact hcert
  unlogged _ := hp2

theorem Collected.phase2FB (hf : r.fallback = true)
    (hp2 : r.req.p2ReplySigsGrouped = []) : (r.phase2FB c).GoodAt c digestOf O where
  covers := h.covers
  phase1s := h.phase1s
  fbs g fb hfb := by
    -- the votes are no longer collected, everything else stays
    obtain ⟨fb', hfb', rfl⟩ := map_eq_some_iff.mp hfb
    obtain ⟨hg, hmode, hgood⟩ := h.fbs g fb' hfb'
    exact ⟨hg, hmode, hgood.sameTxn, hgood.sameDigest, hgood.decisions, nofun⟩
  phase2 := h.phase2
  sent := h.send trivial
  waiting _ hs := by
    rw [phase2FB_req.1] at hs
    cases hs
  logging _ hsome := by
    obtain ⟨p, hp⟩ := isSome_iff_exists.mp hsome
    have := (h.phase2 p hp).1
    rw [hf] at this
    cases this
  unlogged _ := phase2FB_req.2.trans hp2

theorem Collected.handleAllPhase1Received
    (hready : r.req.Ready c digestOf r.txn r.txnDigest) (hp2 : r.req.p2ReplySigsGrouped = []) :
    (r.handleAllPhase1Received c).GoodAt c digestOf O := by
  unfold Request.handleAllPhase1Received
  split
  · rename_i hfast
    exact h.writeback (hready.writeback hfast)
  rename_i hfast
  have hslow : r.req.fast = false := by simpa using hfast
  split
  · rename_i hf
    exact h.phase2FB hf hp2
  · rename_i hf
    exact h.phase2_good (by simpa using hf) hslow hp2 (hready.phase2 hslow)

theorem Collected.setReq (req : PendingRequest) : Collected c digestOf { r with req := req } :=
  ⟨h.covers, h.phase1s, h.fbs, h.phase2, h.sent⟩

end

theorem GoodAt.phase1Callback (hn : c.n = 5 * c.f + 1) (h : r.GoodAt c digestOf O) {group : Nat}
    (hgroup : group ∈ r.txn.involvedGroups) (ho : O group) (hO : ∀ g, r.Open g → O g ∧ g ≠ group) {p1 : PendingPhase1}
    (hp : p1.Decided c digestOf r.txn (Votes c group r.txnDigest) fun x => x.plain c digestOf = true) :
    (r.phase1Callback c group p1).Good c digestOf := by
  unfold Request.phase1Callback
  split
  · exact h.mono fun g hg => (hO g hg).1
  rename_i hguard
  simp only [Bool.or_eq_true, Bool.not_eq_true', not_or, Bool.not_eq_false, Bool.not_eq_true] at hguard
  obtain ⟨⟨hactive, hstarted⟩, -⟩ := hguard
  have hwait := h.waiting hactive hstarted
  have hp2 := h.unlogged hactive
  have hsame : (r.req.phase1CallbackProcessing group p1).p2ReplySigsGrouped = [] ∧
      (r.req.phase1CallbackProcessing group p1).startedPhase2 = false := by
    unfold phase1CallbackProcessing takeSigs
    refine ⟨?_, ?_⟩
    all_goals
      cases p1.decision <;> cases p1.fast <;> cases p1.conflict <;> assumption
  cases hdec : p1.decision with
  | commit =>
    have hwait' : (r.req.phase1CallbackProcessing group p1).Waiting c r.txn r.txnDigest r.fallback r.Open :=
      hwait.commit hn hgroup ho hO hp hdec
    simp only
    split
    · rename_i hzero
      exact (h.toCollected.setReq _).handleAllPhase1Received (hwait'.ready hn h.covers hzero) hsame.1
    · refine ⟨h.toCollected.setReq _, fun _ _ => hwait', fun _ hsome => ?_, fun _ => hsame.1⟩
      have := (h.logging hactive hsome).1
      rw [hstarted] at this
      cases this
  | abort =>
    have hready := hwait.ready_abort (h.covers.small group hgroup) hp hdec
    have hzero : (r.req.phase1CallbackProcessing group p1).outstandingPhase1s = 0 := by
      simp only [phase1CallbackProcessing, hdec]
    simp only [hzero, ↓reduceIte]
    exact (h.toCollected.setReq _).handleAllPhase1Received hready hsame.1

theorem GoodAt.phase2Callback (h : r.GoodAt c digestOf O) (hO : ∀ g, r.Open g → O g) {group : Nat}
    {outcome : P2Outcome} (hslow : r.active = true → (r.req.fast && !r.fallback) = false)
    (hb : outcome.Backed c (Signature.Logs c r.txn r.txnDigest group)) :
    (r.phase2Callback c group outcome).Good c digestOf := by
  unfold Request.phase2Callback
  split
  · exact h.mono hO
  rename_i hguard
  simp only [Bool.or_eq_true, Bool.not_eq_true', not_or, Bool.not_eq_false] at hguard
  have hp2 := h.unlogged hguard.1
  refine (h.toCollected.setReq _).writeback ?_
  simp only [hslow hguard.1, hp2, writebackSigs, Sent.Good]
  obtain ⟨hkept, hlen⟩ := hb
  obtain ⟨s, hs⟩ := List.exists_mem_of_length_pos (show 0 < outcome.sigs.length by
    rw [hlen]
    exact Nat.succ_pos _)
  refine ⟨group, outcome.sigs, outcome.view, rfl, rfl, (hkept.proper s hs).1, ?_⟩
  exact ⟨fun s hs => (hkept.proper s hs).2.1, fun s hs => (hkept.proper s hs).2.2, hkept.nodup, hlen⟩

theorem foldl_acts (group : Nat) (calls : List FBCallback) :
    calls.foldl (fbCallback c group) r = (calls.filter FBCallback.acts).foldl (fbCallback c group) r := by
  rw [List.foldl_filter]
  congr 1
  funext r call
  cases call <;> rfl

section Fallback

variable {group : Nat} {fb : PendingFB} {x : PendingFB × List FBCallback}

theorem Good.setFB (h : r.Good c digestOf) (hfb : r.pendingFBs group = some fb)
    (hx : Handled c (Signature.Logs c r.txn r.txnDigest group) fb x)
    (hv : x.1.p1 = true → x.1.pendingP1.Kept c (Votes c group r.txnDigest)) :
    GoodAt c digestOf r.Open { r with pendingFBs := update r.pendingFBs group (some x.1) } := by
  obtain ⟨hgroup, hmode, hgood⟩ := h.fbs group fb hfb
  refine ⟨⟨h.covers, h.phase1s, ?_, h.phase2, h.sent⟩, h.waiting, h.logging, h.unlogged⟩
  refine (forall_update_iff r.pendingFBs fun g o => ∀ fb, o = some fb →
    g ∈ r.txn.involvedGroups ∧ r.fallback = true ∧ FBGood c r.txn r.txnDigest g fb).mpr ⟨?_, fun g _ => h.fbs g⟩
  intro fb' he
  rw [← some.inj he]
  exact ⟨hgroup, hmode, hx.txn.trans hgood.sameTxn, hx.txnDigest.trans hgood.sameDigest, hx.kept, hv⟩

theorem open_setFB (hfb : r.pendingFBs group = some fb) {fb' : PendingFB} (hp : fb'.p1 = true → fb.p1 = true) (g : Nat)
    (ho : Open { r with pendingFBs := update r.pendingFBs group (some fb') } g) : r.Open g := by
  refine ho.imp_right ?_
  rintro ⟨fb₁, (hfb₁ : update r.pendingFBs group (some fb') g = some fb₁), hp1⟩
  by_cases hg : g = group
  · subst hg
    rw [update_self, some.injEq] at hfb₁
    exact ⟨fb, hfb, hp (hfb₁.symm ▸ hp1)⟩
  · rw [update_of_ne hg] at hfb₁
    exact ⟨fb₁, hfb₁, hp1⟩

theorem not_open_setFB (h : r.Collected c digestOf) (hfb : r.pendingFBs group = some fb)
    {fb' : PendingFB} (hp : fb'.p1 = false) :
    ¬ Open { r with pendingFBs := update r.pendingFBs group (some fb') } group := by
  rintro (⟨p, hpend⟩ | ⟨fb₁, (hfb₁ : update r.pendingFBs group (some fb') group = some fb₁), hp1⟩)
  · have hown := (h.phase1s group p hpend).2.1
    rw [(h.fbs group fb hfb).2.1] at hown
    cases hown
  · rw [update_self, some.injEq] at hfb₁
    rw [← hfb₁, hp] at hp1
    cases hp1

theorem GoodAt.phase1B (h : r.GoodAt c digestOf O) (hgroup : group ∈ r.txn.involvedGroups)
    (hmode : r.fallback = true) (ho : O group) (hO : ∀ g, r.Open g → O g) (hclosed : ¬ r.Open group)
    (dec : CommitDecision) (l : List Phase2Reply) : (r.fbCallback c group (.phase1B dec l)).Good c digestOf := by
  simp only [fbCallback]
  split
  · exact h.mono hO
  rename_i hguard
  simp only [Bool.or_eq_true, Bool.not_eq_true', not_or, Bool.not_eq_false, Bool.not_eq_true] at hguard
  obtain ⟨⟨hactive, hstarted⟩, -⟩ := hguard
  have hwait := h.waiting hactive hstarted
  refine ⟨h.toCollected.setReq _, fun _ _ => ?_, fun _ hsome => ?_, h.unlogged⟩
  · exact
      { groups := hwait.groups
        involved := hwait.involved
        votes := hwait.votes
        outstanding := hwait.outstanding
        reported := fun g hg hopen => hwait.reported g hg (hO g hopen)
        decision := .inr ⟨hmode, group, hgroup, fun hm => hwait.reported group hm ho, hclosed⟩
        conflict := hwait.conflict }
  · have hown := (h.logging hactive hsome).1
    rw [hstarted] at hown
    cases hown

theorem Good.handled (hn : c.n = 5 * c.f + 1) (h : r.Good c digestOf) (hfb : r.pendingFBs group = some fb)
    (hx : Handled c (Signature.Logs c r.txn r.txnDigest group) fb x)
    (hv : VotesHandled c digestOf (Votes c group r.txnDigest)
      (fun x => x.plain c digestOf = true) fb x) : (r.handled c group x).Good c digestOf := by
  obtain ⟨hgroup, hmode, hgood⟩ := h.fbs group fb hfb
  have h₁ := h.setFB hfb hx hv.votes
  have hopen := open_setFB (r := r) hfb hv.p1
  have hup := hv.upcall
  rw [Request.handled, foldl_acts]
  generalize hcalls : x.2.filter FBCallback.acts = calls at hup
  cases hup with
  | none => exact h₁.mono hopen
  | writeback wb =>
    simp only [List.foldl_cons, List.foldl_nil, fbCallback]
    split
    · exact h₁.mono hopen
    · exact ⟨⟨h₁.covers, h₁.phase1s, fun _ _ hf => (by cases hf), h₁.phase2, h₁.send trivial⟩,
        fun ha => (by cases ha), fun ha => (by cases ha), fun ha => (by cases ha)⟩
  | phase2 outcome =>
    have hmem : FBCallback.phase2 outcome ∈ x.2 :=
      List.mem_of_mem_filter (hcalls ▸ List.mem_singleton_self _)
    exact h₁.phase2Callback hopen (fun _ => by simp [hmode]) (hx.backed outcome hmem)
  | phase1A p1 ho hclosed hp1 =>
    have hnot := not_open_setFB h.toCollected hfb hclosed
    refine h₁.phase1Callback hn hgroup (.inr ⟨fb, hfb, ho⟩) (fun g hg => ⟨hopen g hg, ?_⟩)
      (hgood.sameTxn ▸ hp1)
    rintro rfl
    exact hnot hg
  | phase1B dec l ho hclosed =>
    exact h₁.phase1B hgroup hmode (.inr ⟨fb, hfb, ho⟩) hopen
      (not_open_setFB h.toCollected hfb hclosed) dec l

end Fallback

theorem good_own (hcov : Covers txn txn.involvedGroups) : (own digestOf txn).Good c digestOf where
  covers := hcov
  phase1s g p hp := by
    simp only [own] at hp
    split at hp
    · rename_i hg
      rw [← some.inj hp]
      exact ⟨hg, rfl, .new⟩
    · cases hp
  fbs _ _ hfb := by cases hfb
  phase2 _ hp := by cases hp
  sent _ hm := by cases hm
  waiting _ _ := .new
  logging _ hsome := by cases hsome
  unlogged _ := rfl

theorem good_forOther (hcov : Covers txn txn.involvedGroups) : (forOther digestOf txn).Good c digestOf where
  covers := hcov
  phase1s _ _ hp := by cases hp
  fbs g fb hfb := by
    simp only [forOther] at hfb
    split at hfb
    · rename_i hg
      rw [← some.inj hfb]
      exact ⟨hg, rfl, rfl, rfl, fun _ _ => ⟨.nil _, rfl⟩, fun _ => .new⟩
    · cases hfb
  phase2 _ hp := by cases hp
  sent _ hm := by cases hm
  waiting _ _ := .new
  logging _ hsome := by cases hsome
  unlogged _ := rfl

end Request

/-- What a reply brings is what the validators rebuild: votes name their group, decisions the transaction and log group,
and conflicts are accepted by the thread pool too. -/
def RequestEvent.proper (c : Configuration) (digestOf : Transaction → Digest) (r : Request) : RequestEvent → Bool
  | .phase1Reply group reply => reply.plain c digestOf group
  | .phase2Reply reply => (getLogGroup r.txn r.txnDigest).all fun group => reply.plain r.txn r.txnDigest group
  | .phase1FBReply group msg => (msg.p2r.all fun p2r => p2r.plain r.txn r.txnDigest group) &&
      msg.p1r.all fun p1r => p1r.plain c digestOf group
  | .phase2FBReply group p2r => p2r.plain r.txn r.txnDigest group
  | _ => true

namespace Request

variable {r r' : Request} {zeroTimeout : Bool} {group : Nat} {e : RequestEvent}

theorem Good.setPhase1 (h : r.Good c digestOf) (hown : r.fallback = false)
    (hgroup : group ∈ r.txn.involvedGroups) {o : Option PendingPhase1}
    (ho : ∀ p, o = some p → p.Kept c (Votes c group r.txnDigest)) :
    GoodAt c digestOf r.Open { r with pendingPhase1s := update r.pendingPhase1s group o } := by
  refine ⟨⟨h.covers, ?_, h.fbs, h.phase2, h.sent⟩, h.waiting, h.logging, h.unlogged⟩
  exact (forall_update_iff r.pendingPhase1s fun g o => ∀ p, o = some p →
    g ∈ r.txn.involvedGroups ∧ r.fallback = false ∧ p.Kept c (Votes c g r.txnDigest)).mpr
    ⟨fun p hp => ⟨hgroup, hown, ho p hp⟩, fun g _ => h.phase1s g⟩

theorem Good.phase1Decision (hn : c.n = 5 * c.f + 1) (h : r.Good c digestOf) {p p' : PendingPhase1}
    (hp : r.pendingPhase1s group = some p) (hdec : p'.Decided c digestOf r.txn (Votes c group r.txnDigest)
      fun x => x.plain c digestOf = true) :
    ({ r with pendingPhase1s := update r.pendingPhase1s group none }.phase1Callback c group p').Good
      c digestOf := by
  obtain ⟨hgroup, hown, -⟩ := h.phase1s group p hp
  have h₁ := h.setPhase1 hown hgroup (o := none) fun _ hp => by cases hp
  refine h₁.phase1Callback hn hgroup (.inl ⟨p, hp⟩) (fun g hg => ?_) hdec
  rcases hg with ⟨q, (hq : update r.pendingPhase1s group none g = some q)⟩ | ⟨fb, hfb, -⟩
  · by_cases hg : g = group
    · subst hg
      rw [update_self] at hq
      cases hq
    · rw [update_of_ne hg] at hq
      exact ⟨.inl ⟨q, hq⟩, hg⟩
  · have hmode := (h.fbs g fb hfb).2.1
    rw [hown] at hmode
    cases hmode

theorem Good.phase2Reply (h : r.Good c digestOf) {reply : Phase2Reply}
    (hp : (RequestEvent.phase2Reply reply).proper c digestOf r = true)
    (hs : step c digestOf zeroTimeout r (.phase2Reply reply) = some r') : r'.Good c digestOf := by
  simp only [step] at hs
  split at hs
  · rename_i p2 logGrp hpend hlog
    obtain ⟨hown, hkept⟩ := h.phase2 p2 hpend
    rw [RequestEvent.proper, hlog, all_some] at hp
    have hbrings : reply.Brings c logGrp (Signature.Logs c r.txn r.txnDigest logGrp) :=
      Phase2Reply.brings_of_plain hp
    have hlogging := fun hactive => h.logging hactive (by rw [hpend]; rfl)
    split at hs
    · rename_i p2' he
      obtain ⟨-, -, hkept', -⟩ := (hkept logGrp hlog).handlePhase2Reply hbrings he
      cases hs
      refine ⟨⟨h.covers, h.phase1s, h.fbs, fun q hq => ⟨hown, fun g hg => ?_⟩, h.sent⟩, h.waiting,
        fun hactive _ => hlogging hactive, h.unlogged⟩
      cases hq
      cases hlog.symm.trans hg
      exact hkept' rfl
    · rename_i p2' outcome he
      obtain ⟨-, -, -, hbacked⟩ := (hkept logGrp hlog).handlePhase2Reply hbrings he
      cases hs
      have h₁ : GoodAt c digestOf r.Open { r with pendingPhase2 := none } :=
        ⟨⟨h.covers, h.phase1s, h.fbs, nofun, h.sent⟩, h.waiting, nofun, h.unlogged⟩
      refine h₁.phase2Callback (fun _ ho => ho) (fun hactive => ?_) (hbacked outcome rfl)
      rw [(hlogging hactive).2.1, Bool.false_and]
  · cases hs
    exact h

theorem fbCallback_txn (r : Request) (group : Nat) (call : FBCallback) :
    (r.fbCallback c group call).txn = r.txn ∧ (r.fbCallback c group call).txnDigest = r.txnDigest := by
  cases call with
  | invoke => exact ⟨rfl, rfl⟩
  | _ =>
    simp only [fbCallback, Request.phase1Callback, Request.phase2Callback, Request.handleAllPhase1Received]
    repeat' split
    all_goals exact ⟨rfl, rfl⟩

theorem handled_txn (r : Request) (x : PendingFB × List FBCallback) :
    (r.handled c group x).txn = r.txn ∧ (r.handled c group x).txnDigest = r.txnDigest := by
  refine List.foldlRecOn x.2 (motive := fun r' : Request => r'.txn = r.txn ∧ r'.txnDigest = r.txnDigest) _ ⟨rfl, rfl⟩ ?_
  intro r' hr' call _
  obtain ⟨ht, hd⟩ := fbCallback_txn (c := c) r' group call
  exact ⟨ht.trans hr'.1, hd.trans hr'.2⟩

theorem step_txn (hs : step c digestOf zeroTimeout r e = some r') : r'.txn = r.txn ∧ r'.txnDigest = r.txnDigest := by
  have hp1 := fun (r : Request) group p1 => fbCallback_txn (c := c) r group (.phase1A p1)
  have hp2 := fun (r : Request) group o => fbCallback_txn (c := c) r group (.phase2 o)
  cases e with
  | phase1Reply group reply =>
    simp only [step] at hs
    split at hs
    · cases hs
      exact ⟨rfl, rfl⟩
    · obtain ⟨⟨p1, done⟩, -, rfl⟩ := map_eq_some_iff.mp hs
      cases done with
      | false => exact ⟨rfl, rfl⟩
      | true => exact hp1 _ group p1
  | phase1Timeout group =>
    simp only [step] at hs
    split at hs
    · cases hs
      exact ⟨rfl, rfl⟩
    · obtain ⟨p1, -, rfl⟩ := map_eq_some_iff.mp hs
      exact hp1 _ group p1
  | phase2Reply reply =>
    simp only [step] at hs
    split at hs
    · split at hs
      · cases hs
        exact ⟨rfl, rfl⟩
      · cases hs
        exact hp2 _ _ _
    · cases hs
      exact ⟨rfl, rfl⟩
  | phase2Timeout =>
    simp only [step] at hs
    split at hs
    · cases hs
    · split at hs <;> (cases hs; exact ⟨rfl, rfl⟩)
  | phase1FBReply group _ | fbTimeout group =>
    simp only [step] at hs
    split at hs
    · cases hs <;> exact ⟨rfl, rfl⟩
    · obtain ⟨x, -, rfl⟩ := map_eq_some_iff.mp hs
      exact handled_txn r x
  | phase2FBReply group _ | invokeFB group _ =>
    simp only [step] at hs
    split at hs
    · cases hs
      exact ⟨rfl, rfl⟩
    · cases hs
      exact handled_txn r _

theorem Good.step (hn : c.n = 5 * c.f + 1) (h : r.Good c digestOf)
    (hp : e.proper c digestOf r = true) (hs : step c digestOf zeroTimeout r e = some r') : r'.Good c digestOf := by
  cases e with
  | phase1Reply group reply =>
    simp only [step] at hs
    split at hs
    · cases hs
      exact h
    rename_i p1 hp1
    obtain ⟨⟨p1', done⟩, hx, rfl⟩ := map_eq_some_iff.mp hs
    obtain ⟨hgroup, hown, hkept⟩ := h.phase1s group p1 hp1
    obtain ⟨hkept', hdecided⟩ := hkept.processP1R (Phase1Reply.brings_of_plain hp) hx
    cases done with
    | false =>
      refine (h.setPhase1 hown hgroup fun p he => some.inj he ▸ hkept' rfl).mono fun g hg => ?_
      refine hg.imp_left ?_
      rintro ⟨q, (hq : update r.pendingPhase1s group (some p1') g = some q)⟩
      by_cases hg : g = group
      · exact hg ▸ ⟨p1, hp1⟩
      · rw [update_of_ne hg] at hq
        exact ⟨q, hq⟩
    | true => exact h.phase1Decision hn hp1 (hdecided rfl)
  | phase1Timeout group =>
    simp only [step] at hs
    split at hs
    · cases hs
      exact h
    · rename_i p1 hp1
      obtain ⟨p1', hx, rfl⟩ := map_eq_some_iff.mp hs
      exact h.phase1Decision hn hp1 ((h.phase1s group p1 hp1).2.2.timeout hx)
  | phase2Reply reply => exact h.phase2Reply hp hs
  | phase2Timeout =>
    simp only [step] at hs
    split at hs
    · cases hs
    rename_i hsome
    obtain ⟨p2, hpend⟩ := ne_none_iff_exists'.mp (by simpa using hsome)
    split at hs
    · cases hs
      exact ⟨⟨h.covers, h.phase1s, h.fbs, nofun, h.sent⟩, h.waiting, nofun, h.unlogged⟩
    rename_i hguard
    simp only [Bool.or_eq_true, Bool.not_eq_true', not_or, Bool.not_eq_false] at hguard
    obtain ⟨-, hfast, hcert⟩ := h.logging hguard.1 (by rw [hpend]; rfl)
    cases hs
    exact h.toCollected.phase2_good (h.phase2 p2 hpend).1 hfast (h.unlogged hguard.1) hcert
  | phase1FBReply group msg =>
    simp only [step] at hs
    split at hs
    · cases hs
      exact h
    rename_i fb hfb
    obtain ⟨x, hx, rfl⟩ := map_eq_some_iff.mp hs
    obtain ⟨-, -, hgood⟩ := h.fbs group fb hfb
    rw [RequestEvent.proper, Bool.and_eq_true] at hp
    refine h.handled hn hfb (hgood.decisions.handlePhase1FBReply (fun reply hr => ?_) hx)
      (votes_handlePhase1FBReply hgood.votes (fun reply hr => ?_) hx)
    · rw [hr, all_some] at hp
      exact Phase2Reply.brings_of_plain hp.1
    · rw [hr, all_some] at hp
      rw [hgood.sameDigest]
      exact Phase1Reply.brings_of_plain hp.2
  | phase2FBReply group p2r =>
    simp only [step] at hs
    split at hs
    · cases hs
      exact h
    rename_i fb hfb
    obtain ⟨-, -, hgood⟩ := h.fbs group fb hfb
    cases hs
    obtain ⟨hpart, -⟩ := p2Part_processP2FBR (c := c) (r := fb.processP2FBR c group p2r r.active)
      fb p2r rfl
    exact h.handled hn hfb (hgood.decisions.processP2FBR (Phase2Reply.brings_of_plain hp) r.active rfl)
      (hpart.votesHandled hgood.votes)
  | fbTimeout group =>
    simp only [step] at hs
    split at hs
    · cases hs
    rename_i fb hfb
    obtain ⟨x, hx, rfl⟩ := map_eq_some_iff.mp hs
    obtain ⟨-, -, hgood⟩ := h.fbs group fb hfb
    exact h.handled hn hfb (.of_quiet hgood.decisions (quiet_timeout hx))
      (votes_timeout hgood.votes hx)
  | invokeFB group view =>
    simp only [step] at hs
    split at hs
    · cases hs
      exact h
    rename_i fb hfb
    obtain ⟨-, -, hgood⟩ := h.fbs group fb hfb
    cases hs
    exact h.handled hn hfb (x := ({ fb with lastView := view }, []))
      (.of_quiet hgood.decisions (.of_calls nofun rfl rfl rfl)) ⟨id, hgood.votes, .none⟩

structure Idle (r : Request) : Prop where
  phase1s : ∀ g, r.pendingPhase1s g = none
  phase2 : r.pendingPhase2 = none
  fbs : ∀ g, r.pendingFBs g = none
  sent : r.sent = []

theorem Idle.step (h : r.Idle) (hs : step c digestOf zeroTimeout r e = some r') : r'.Idle := by
  cases e <;> simp [step, h.phase1s, h.phase2, h.fbs] at hs <;> exact hs ▸ h

theorem idle_start (hnil : txn.involvedGroups = []) (hr : r = own digestOf txn ∨ r = forOther digestOf txn) :
    r.Idle := by
  rcases hr with rfl | rfl
  · exact ⟨fun g => by simp [own, hnil], rfl, fun _ => rfl, rfl⟩
  · exact ⟨fun _ => rfl, rfl, fun g => by simp [forOther, hnil], rfl⟩

end Request

/-- The replica `id`, with its own vote `my` and decision `myDec`, validates the message in any order of the groups. -/
def Sent.Accepted (c : Configuration) (digestOf : Transaction → Digest) (txn : Transaction) (id : Nat)
    (my : Option Result) (myDec : Option CommitDecision) : Sent → Prop
  | .phase2 msg => ∀ gs, gs.Perm msg.groupedSigs → OwnVote id my (ccrOf msg.decision) gs →
      validateP1Replies c msg.decision false txn (digestOf txn) gs id my = true ∧
      asyncValidateP1Replies c msg.decision false txn (digestOf txn) gs id my = true
  | .writeback msg =>
    match msg.sigs with
    | .p1 sigs => ∀ gs, gs.Perm sigs → OwnVote id my (ccrOf msg.decision) gs →
        validateP1Replies c msg.decision true txn (digestOf txn) gs id my = true ∧
        asyncValidateP1Replies c msg.decision true txn (digestOf txn) gs id my = true
    | .p2 sigs view => OwnDecision id myDec msg.decision sigs → ∃ v, view = some v ∧
        validateP2Replies c msg.decision v txn (digestOf txn) sigs id myDec = true ∧
        asyncValidateP2Replies c msg.decision v txn (digestOf txn) sigs id myDec = true
    | .conflict proof => validateCommittedConflict c proof (digestOf proof.txn) txn = true ∧
        asyncValidateCommittedConflict c proof (digestOf proof.txn) txn = true
    | .none => False
  | .phase2FB _ => True
  | .forward _ => True

theorem Sent.Good.accepted (hn : 0 < c.n) (h : m.Good c digestOf txn (digestOf txn)) (id : Nat)
    (my : Option Result) (myDec : Option CommitDecision) : m.Accepted c digestOf txn id my myDec := by
  cases m with
  | phase2 msg =>
    intro gs hperm hown
    have hcert := P1Cert.perm h hperm
    exact ⟨hcert.validateP1Replies hown, hcert.asyncValidateP1Replies hown⟩
  | phase2FB _ => trivial
  | forward _ => trivial
  | writeback msg =>
    simp only [Sent.Good] at h
    simp only [Sent.Accepted]
    cases hsigs : msg.sigs with
    | p1 sigs =>
      rw [hsigs] at h
      intro gs hperm hown
      have hcert := P1Cert.perm h hperm
      exact ⟨hcert.validateP1Replies hown, hcert.asyncValidateP1Replies hown⟩
    | p2 sigs view =>
      rw [hsigs] at h
      obtain ⟨g, l, v, rfl, rfl, hlog, hcert⟩ := h
      exact fun hown => ⟨v, rfl, hcert.validateP2Replies hlog hown, hcert.asyncValidateP2Replies hlog⟩
    | conflict proof =>
      rw [hsigs] at h
      exact ⟨h.1, asyncValidateCommittedConflict_of_plain hn h.2 h.1⟩
    | none =>
      rw [hsigs] at h
      exact h

/-- Every Phase2 and Writeback that a client builds, also for other transactions, passes the validations of every
replica. -/
theorem assembled_certificates_accepted {zeroTimeout : Bool} {r₀ r : Request} {es : List RequestEvent}
    (hn : c.n = 5 * c.f + 1) (hnd : txn.involvedGroups.Nodup) (hsmall : ∀ g ∈ txn.involvedGroups, g < 2 ^ 32)
    (hr₀ : r₀ = Request.own digestOf txn ∨ r₀ = Request.forOther digestOf txn)
    (h : Run.exec (Request.step c digestOf zeroTimeout) r₀ es = some r)
    (hproper : Run.Meets (Request.step c digestOf zeroTimeout) (fun r e => e.proper c digestOf r = true) r₀ es)
    (hm : m ∈ r.sent) (id : Nat) (my : Option Result) (myDec : Option CommitDecision) :
    m.Accepted c digestOf txn id my myDec := by
  by_cases hne : txn.involvedGroups = []
  · have hidle : r.Idle := Run.exec_invariant (fun hi hs => hi.step hs) (idle_start hne hr₀) h
    rw [hidle.sent] at hm
    cases hm
  have hcov : Covers txn txn.involvedGroups := ⟨hne, hnd, hsmall, fun _ hg => hg⟩
  have hstart : r₀.Good c digestOf ∧ r₀.txn = txn ∧ r₀.txnDigest = digestOf txn := by
    rcases hr₀ with rfl | rfl
    · exact ⟨good_own hcov, rfl, rfl⟩
    · exact ⟨good_forOther hcov, rfl, rfl⟩
  obtain ⟨hgood, htxn, hd⟩ := Run.exec_invariant_of_meets
    (P := fun r => r.Good c digestOf ∧ r.txn = txn ∧ r.txnDigest = digestOf txn)
    (fun ⟨hg, ht, hd⟩ hp hs => ⟨hg.step hn hp hs, (step_txn hs).1.trans ht, (step_txn hs).2.trans hd⟩)
    hstart hproper h
  have hsent := hgood.sent m hm
  rw [htxn, hd] at hsent
  exact hsent.accepted (by omega) id my myDec

/-! ## A vote for another group -/

/-- All six replicas of group `0` vote to commit; the last one signs its vote for the group
`lastGroup`. -/
def votesRun (lastGroup : Nat) : List RequestEvent :=
  [(0, 0), (1, 0), (2, 0), (3, 0), (4, 0), (5, lastGroup)].map fun (x : Nat × Nat) =>
    .phase1Reply 0 ⟨none, some (.signedBy x.1 (.concurrencyControl .commit [4] x.2))⟩

def sampleRequest (es : List RequestEvent) : Option Request :=
  Run.exec (Request.step sixReplicas.config sixReplicas.digestOf false) (.own sixReplicas.digestOf sampleTxn) es

/-- A Writeback with votes to commit, which replica `0` rejects. -/
def Sent.rejectedByZero : Sent → Bool
  | .writeback ⟨.commit, _, _, .p1 gs⟩ => !asyncValidateP1Replies sixReplicas.config .commit true sampleTxn
      (sixReplicas.digestOf sampleTxn) gs 0 (some .commit)
  | _ => false

theorem Sent.not_accepted_of_rejectedByZero (h : m.rejectedByZero = true) :
    ¬ m.Accepted sixReplicas.config sixReplicas.digestOf sampleTxn 0 (some .commit) none := by
  unfold Sent.rejectedByZero at h
  split at h
  · rename_i gs
    intro hacc
    obtain ⟨-, hasync⟩ := hacc gs (.refl _) (.inr (.inl rfl))
    rw [hasync] at h
    cases h
  · cases h

/-- Replica `5` votes with a signature for group `1`. The client takes the fast path, and replica `0` rejects its
Writeback. -/
theorem misdirected_vote : ∃ r, sampleRequest (votesRun 1) = some r ∧ ∃ m ∈ r.sent,
    ¬ m.Accepted sixReplicas.config sixReplicas.digestOf sampleTxn 0 (some .commit) none := by
  have hany : ((sampleRequest (votesRun 1)).any fun r => r.sent.any Sent.rejectedByZero) = true := by
    decide +kernel
  obtain ⟨r, hr, hsent⟩ := Run.exec_of_any hany
  obtain ⟨m, hm, hrej⟩ := List.any_eq_true.mp hsent
  exact ⟨r, hr, m, hm, Sent.not_accepted_of_rejectedByZero hrej⟩

theorem assembled_certificates_accepted_votes : ∃ r, sampleRequest (votesRun 0) = some r ∧ r.sent.length = 1 ∧
    ∀ m ∈ r.sent, m.Accepted sixReplicas.config sixReplicas.digestOf sampleTxn 0 (some .commit) none := by
  have hm : Run.Meets (step sixReplicas.config sixReplicas.digestOf false)
      (fun r e => e.proper sixReplicas.config sixReplicas.digestOf r = true)
      (.own sixReplicas.digestOf sampleTxn) (votesRun 0) := by
    decide +kernel
  have hany : ((sampleRequest (votesRun 0)).any fun r => r.sent.length == 1) = true := by
    decide +kernel
  obtain ⟨r, hr, hlen⟩ := Run.exec_of_any hany
  refine ⟨r, hr, beq_iff_eq.mp hlen, fun m hmem => ?_⟩
  exact assembled_certificates_accepted (by decide) (by decide) (by decide) (.inl rfl) hr hm hmem
    0 (some .commit) none

end Pequin
