import Pequin.Framework.Quorum
import Pequin.Proof.Ballots
import Pequin.Proof.Validate

/-!
# What certificates prove

The knowledge that the state of the cluster supports (`know`), and the certificates from which a replica may conclude
it. The validators do not look at everything that is needed: `Message.Proper` and `ProperStep` say what a message and a
step have to meet besides.
-/

namespace Pequin

open Pequin.Configuration List Option Quorum SignedBody World

variable {s : Sig} {gs : GroupedSignatures} {dec : CommitDecision} {v myId r : Nat} {c : Cluster} {T : Transaction}
  {d : Digest} {w : World}

/-! ## Proper messages -/

/-- A Phase2 decision, and no other message with the same bytes. -/
def SignedBody.isPhase2Decision : SignedBody → Bool
  | .phase2Decision _ _ _ _ => true
  | _ => false

def SignedBody.isElectMessage : SignedBody → Bool
  | .electMessage _ _ _ _ => true
  | _ => false

section Proper

variable (c) (T) (d)

def InLogGroup (id : Nat) : Prop := getLogGroup T d = some (id / c.config.n)
  deriving Decidable

def ProperDecision (dec : CommitDecision) (view : Nat) (s : Signature) : Prop :=
  InLogGroup c T d s.processId ∧ s.signature = ⟨s.processId, .phase2Decision dec d (s.processId / c.config.n) view⟩
  deriving Decidable

/-- A member of the log group, with its signature under the ElectFB. -/
def ProperElect (dec : CommitDecision) (view : Nat) (s : Signature) : Prop :=
  InLogGroup c T d s.processId ∧ s.signature = ⟨s.processId, .electMessage 0 d dec view⟩
  deriving Decidable

/-- The votes are of involved groups, and the replies of the log group are Phase2 decisions. -/
def Phase2FB.Proper (m : Phase2FB) : Prop :=
  (∀ gs ∈ m.p1Sigs, VotesInGroups c.config T gs) ∧
  ∀ rs ∈ m.p2Replies, ∀ r ∈ rs, InLogGroup c T d r.processId ∧ r.signature.body.isPhase2Decision = true
  deriving Decidable

/-- Signatures under a decision to commit or abort. -/
def ProperSigs (dec : CommitDecision) : ProofSigs → Prop
  | .p1 gs => VotesInGroups c.config T gs
  | .p2 gs view => ∀ p ∈ gs, ∀ s ∈ p.2, ProperDecision c T d dec view s
  | .none => True

def WritebackSigs.proof : WritebackSigs → ProofSigs
  | .p1 gs => .p1 gs
  | .p2 gs (some view) => .p2 gs view
  | _ => .none

/-- What the validators leave open: certificates name involved groups and their members, and what is signed is a message
of its kind. -/
def Message.Proper : Message → Prop
  | .phase2 m => VotesInGroups c.config T m.groupedSigs
  | .phase2FB m => m.Proper c T d
  | .invokeFB m => ∀ p2fb ∈ m.p2fb, p2fb.Proper c T d
  | .electFB m => InLogGroup c T d m.processId ∧ m.signature.body.isElectMessage = true
  | .decisionFB m => ∀ s ∈ m.electSigs, ProperElect c T d m.decision m.view s
  | .writeback m => ProperSigs c T d m.decision m.sigs.proof
  | .supply _ proof => ProperSigs c T d .commit proof.sigs
  | _ => True

/-- The own votes for a decision: of `q` replicas in every involved group, or in one. -/
def Votes (w : World) (q : Nat) : CommitDecision → Prop
  | .commit => ∀ g ∈ T.involvedGroups,
      Attested (c.members g) (fun r => c.byzantine r = true) (fun r => (w r d).outcome.accepts) q
  | .abort => ∃ g ∈ T.involvedGroups,
      Attested (c.members g) (fun r => c.byzantine r = true) (fun r => (w r d).outcome.refuses) q

/-- A Phase2 certificate of a view. -/
def Decided (w : World) (dec : CommitDecision) (v : Nat) : Prop :=
  ∃ L, getLogGroup T d = some L ∧ Attested (c.members L) (fun r => c.byzantine r = true)
    (fun r => setP2 (c.server r) d dec v ∈ (w r d).logger.signed) c.config.quorumSize

/-- A fallback election that was won. -/
def Elected (w : World) (dec : CommitDecision) (v : Nat) : Prop :=
  ∃ L, getLogGroup T d = some L ∧ Attested (c.members L) (fun r => c.byzantine r = true)
    (fun r => .electMessage 0 d dec v ∈ (w r d).logger.signed) (2 * c.config.f + 1)

/-- What the state of the cluster supports. -/
def know (w : World) : Knowledge where
  voted dec := Votes c T d w (p1QuorumSize c.config dec false) dec
  cert dec := Votes c T d w (p1QuorumSize c.config dec true) dec ∨ ∃ v, Decided c T d w dec v
  elected := Elected c T d w

/-! ## Invariants of a node -/

/-- A message whose signatures exist, and which is proper. -/
structure MsgInv (w : World) (m : Message) : Prop where
  digest : m.digest c.digestOf = d
  proper : m.Proper c T d
  txns : ∀ t ∈ m.txns, t = T
  genuine : ∀ s ∈ m.sigs, World.genuine c w s = true

/-- What a dispatched task rests on. -/
structure TaskInv (w : World) (K : Knowledge) (r : Nat) (nd : Node) (t : Task) : Prop where
  message : ∀ m, t.message d = some m → MsgInv c T d w m
  fromMessage : t.FromMessage
  txn : ∀ x, t.txn? = some x → x = T
  vote : ∀ res, t.myVote = some res → nd.state.p1.result = some res ∧ res ≠ .wait
  decision : ∀ dec, t.myDecision = some dec → K.voted dec
  ownElect : ∀ v dec, t = .ownElect v dec → .electMessage 0 d dec v ∈ nd.logger.signed
  invoke : t.isInvoke = true → InLogGroup c T d r

/-- A signature that a leader has counted. -/
structure SigInv (w : World) (v : Nat) (dec : CommitDecision) (s : Signature) : Prop where
  member : InLogGroup c T d s.processId
  signer : s.signature.signer = s.processId
  body : ∃ q, s.signature.body = .electMessage q d dec v
  genuine : World.genuine c w s.signature = true

/-- The invariant of a correct replica. -/
structure NodeInv (w : World) (K : Knowledge) (r : Nat) (nd : Node) : Prop where
  votes : VoteInv K d nd.outcome
  ballots : BallotsVoted K (c.server r) d nd.logger
  locks : c.allToAllFb = false → BallotInv K (nd.state.forwardWriteback = true) (c.server r) d nd.logger
  tasks : ∀ t ∈ nd.state.tasks, TaskInv c T d w K r nd t
  oo : ∀ o, nd.state.oo = some o → MsgInv c T d w o.message
  ongoing : ∀ x, nd.state.ongoing = some x → x = T
  sigs : ∀ v dec, ∀ s ∈ nd.state.electSigs v dec, SigInv c T d w v dec s
  views : NoViewProofs c nd
  own : nd.logger.Own (c.server r) d
  member : ∀ dec v, .electMessage 0 d dec v ∈ nd.logger.signed → InLogGroup c T d r

def ClusterInv (w : World) : Prop :=
  ∀ r, c.byzantine r = false → NodeInv c T d w (know c T d w) r (w r d)

end Proper

/-! ## From certificates to knowledge -/

theorem mem_members (hn : 0 < c.config.n) {r g : Nat} : r ∈ c.members g ↔ r / c.config.n = g := by
  rw [Cluster.members, Finset.mem_Ico, Nat.div_eq_iff hn]
  constructor
  · intro h
    have := Nat.add_one_mul g c.config.n
    constructor <;> omega
  · intro h
    have := Nat.add_one_mul g c.config.n
    constructor <;> omega

theorem card_members (g : Nat) : (c.members g).card = c.config.n := by
  rw [Cluster.members, Nat.card_Ico, Nat.add_one_mul]
  omega

theorem genuine_iff : genuine c w s = true ↔
    c.byzantine s.signer = true ∨ s.body ∈ (w s.signer s.body.digest).signed := by
  rw [genuine, Bool.or_eq_true, contains_iff_mem]

section

variable (hr : c.byzantine r = false)
include hr

theorem ballot_of_genuine {b : SignedBody} (hb : b.isBallot = true) (hd : b.digest = d)
    (h : genuine c w ⟨r, b⟩ = true) : b ∈ (w r d).logger.signed := by
  have hmem := (genuine_iff.mp h).resolve_left (by rw [hr]; exact Bool.false_ne_true)
  exact mem_filter.mpr ⟨hd ▸ hmem, hb⟩

theorem vote_of_genuine {g : Nat} {res : Result} (h : genuine c w ⟨r, .concurrencyControl res d g⟩ = true) :
    .concurrencyControl res d g ∈ (w r d).outcome.signed :=
  mem_filter.mpr ⟨(genuine_iff.mp h).resolve_left (by rw [hr]; exact Bool.false_ne_true), rfl⟩

end

section

variable {α : Type} {pid : α → Nat} {l : List α} {P : Nat → Prop} {q g : Nat} (ht : c.Tolerant)
  (hnd : (l.map pid).Nodup) (hlen : q ≤ l.length) (hP : ∀ e ∈ l, c.byzantine (pid e) = false → P (pid e))
include ht hnd hlen hP

theorem attested_of_members (hg : ∀ e ∈ l, pid e / c.config.n = g) :
    Attested (c.members g) (fun r => c.byzantine r = true) P q := by
  have hn : 0 < c.config.n := by
    rw [ht.n_eq]
    exact Nat.succ_pos _
  refine Attested.of_list hnd ?_ ?_ (by rwa [length_map])
  · intro r hr
    obtain ⟨e, he, rfl⟩ := mem_map.mp hr
    exact (mem_members hn).mpr (hg e he)
  · intro r hr
    obtain ⟨e, he, rfl⟩ := mem_map.mp hr
    cases hbyz : c.byzantine (pid e) with
    | true => exact .inl rfl
    | false => exact .inr (hP e he hbyz)

theorem attested_of_logGroup (hq : 0 < q) (hmem : ∀ e ∈ l, InLogGroup c T d (pid e)) :
    ∃ L, getLogGroup T d = some L ∧ Attested (c.members L) (fun r => c.byzantine r = true) P q := by
  obtain ⟨e₀, he₀⟩ := exists_mem_of_length_pos (hq.trans_le hlen)
  refine ⟨_, hmem e₀ he₀, attested_of_members ht hnd hlen hP fun e he => ?_⟩
  exact some.inj ((hmem e he).symm.trans (hmem e₀ he₀))

end

/-- What a certificate of votes proves. -/
theorem votes_of_backed (ht : c.Tolerant) (hinv : ClusterInv c T d w)
    {own : Nat → Prop} {q : Nat} (hb : Backed c.config T d gs own q dec) (hg : ∀ s ∈ gs.sigs, genuine c w s = true)
    (hown : ∀ r, own r → (dec = .commit → (w r d).outcome.accepts) ∧ (dec = .abort → (w r d).outcome.refuses)) :
    Votes c T d w q dec ∨ (know c T d w).cert dec := by
  by_cases hcert : (know c T d w).cert dec
  · exact .inr hcert
  left
  have hquorum : ∀ (P : Nat → Prop) (res : Result) (g : Nat), VoteQuorum c.config d gs own res q g →
      (∀ r, own r → P r) → (∀ r g, c.byzantine r = false → .concurrencyControl res d g ∈ (w r d).outcome.signed → P r) →
      Attested (c.members g) (fun r => c.byzantine r = true) P q := by
    rintro P res g ⟨l, hnd, hlen, hl⟩ hP hvote
    refine attested_of_members ht hnd hlen (fun s hs hbyz => ?_) fun s hs => (hl s hs).1
    obtain ⟨-, hsig, hown' | hsigned⟩ := hl s hs
    · exact hP _ hown'
    have hgen := hg _ hsig
    rw [hsigned] at hgen
    exact hvote _ g hbyz (vote_of_genuine hbyz hgen)
  cases dec with
  | commit =>
    intro g hgroup
    refine hquorum _ _ g (hb g hgroup) (fun r hr => (hown r hr).1 rfl) fun r g' hr hmem => ?_
    exact ((hinv r hr).votes.commit g' hmem).resolve_right hcert
  | abort =>
    obtain ⟨g, hgroup, hvq⟩ := hb
    refine ⟨g, hgroup, hquorum _ _ g hvq (fun r hr => (hown r hr).2 rfl) fun r g' hr hmem => ?_⟩
    exact ((hinv r hr).votes.abstain g' hmem).resolve_right hcert

theorem Votes.mono_q {q q' : Nat} (h : Votes c T d w q dec) (hq : q' ≤ q) : Votes c T d w q' dec := by
  cases dec with
  | commit => exact fun g hg => (h g hg).mono hq fun _ _ _ h => h
  | abort =>
    obtain ⟨g, hg, hatt⟩ := h
    exact ⟨g, hg, hatt.mono hq fun _ _ _ h => h⟩

theorem quorum_slow_le_fast (hn : c.config.n = 5 * c.config.f + 1) :
    p1QuorumSize c.config dec false ≤ p1QuorumSize c.config dec true := by
  cases dec <;> simp only [p1QuorumSize, slowCommitQuorumSize, fastQuorumSize,
    slowAbortQuorumSize, fastAbortQuorumSize] <;> omega

theorem voted_of_cert (ht : c.Tolerant) (hinv : ClusterInv c T d w)
    (h : (know c T d w).cert dec) : (know c T d w).voted dec := by
  rcases h with h | ⟨v, L, -, h⟩
  · exact h.mono_q (quorum_slow_le_fast ht.n_eq)
  · obtain ⟨r, -, hr, hsigned⟩ := h.exists_correct (ht.faulty L)
      (by rw [quorumSize]; omega)
    rw [Bool.not_eq_true] at hr
    exact (hinv r hr).ballots.signed dec v hsigned

/-- What a Phase2 certificate proves. -/
theorem decided_of_distinct (ht : c.Tolerant)
    (h : Distinct Signature.processId (fun s => ∃ p ∈ gs, s ∈ p.2) c.config.quorumSize)
    (hp : ∀ p ∈ gs, ∀ s ∈ p.2, ProperDecision c T d dec v s)
    (hg : ∀ s ∈ gs.sigs, genuine c w s = true) : Decided c T d w dec v := by
  obtain ⟨l, hl, hnd, hlen⟩ := h
  have hproper : ∀ s ∈ l, ProperDecision c T d dec v s ∧ s.signature ∈ gs.sigs := by
    intro s hs
    obtain ⟨p, hp', hmem⟩ := hl s hs
    exact ⟨hp p hp' s hmem, mem_sigs_of_mem hp' hmem⟩
  refine attested_of_logGroup ht hnd hlen (fun s hs hbyz => ?_) (Nat.succ_pos _) fun s hs => (hproper s hs).1.1
  have hgen := hg _ (hproper s hs).2
  rw [(hproper s hs).1.2] at hgen
  exact ballot_of_genuine hbyz rfl rfl hgen

theorem elected_of_sigs (ht : c.Tolerant) (hinv : ClusterInv c T d w) {l : List Signature}
    (hnd : (l.map Signature.processId).Nodup) (hlen : 2 * c.config.f + 1 ≤ l.length)
    (hl : ∀ s ∈ l, SigInv c T d w v dec s) : Elected c T d w dec v := by
  refine attested_of_logGroup ht hnd hlen (fun s hs hbyz => ?_) (Nat.succ_pos _) fun s hs => (hl s hs).member
  obtain ⟨q, hbody⟩ := (hl s hs).body
  have hgen : genuine c w ⟨s.processId, .electMessage q d dec v⟩ = true := by
    rw [← (hl s hs).signer, ← hbody]
    exact (hl s hs).genuine
  have hmem := ballot_of_genuine hbyz rfl rfl hgen
  -- correct replicas leave the request id at its default
  rcases (hinv _ hbyz).own _ hmem with ⟨dec', v', heq⟩ | ⟨dec', v', heq⟩
  · cases heq
  · simp only [electMessage.injEq, true_and] at heq
    rw [heq.1] at hmem
    exact hmem

theorem elected_correct (ht : c.Tolerant) (h : Elected c T d w dec v) :
    ∃ r, c.byzantine r = false ∧ .electMessage 0 d dec v ∈ (w r d).logger.signed := by
  obtain ⟨L, -, h⟩ := h
  obtain ⟨r, -, hr, hsigned⟩ := h.exists_correct (ht.faulty L) (by omega)
  rw [Bool.not_eq_true] at hr
  exact ⟨r, hr, hsigned⟩

theorem voted_of_elected (ht : c.Tolerant) (hinv : ClusterInv c T d w)
    (h : Elected c T d w dec v) : (know c T d w).voted dec := by
  obtain ⟨r, hr, hsigned⟩ := elected_correct ht h
  exact (hinv r hr).ballots.elect dec v hsigned

theorem not_elected_zero (ht : c.Tolerant) (hmode : c.allToAllFb = false) (hinv : ClusterInv c T d w)
    (dec : CommitDecision) : ¬ Elected c T d w dec 0 := by
  intro h
  obtain ⟨r, hr, hsigned⟩ := elected_correct ht h
  obtain ⟨v, hv, -⟩ := (((hinv r hr).locks hmode).elect dec 0 hsigned).locked
  exact absurd hv (Nat.not_lt_zero v)

section

variable {my : Option Result} (ht : c.Tolerant) (h32 : ∀ g ∈ T.involvedGroups, g < 2 ^ 32) (hinv : ClusterInv c T d w)
  (hgs : VotesInGroups c.config T gs) (hg : ∀ s ∈ gs.sigs, genuine c w s = true)
  (hmy : ∀ res, my = some res → (w myId d).state.p1.result = some res)
include ht h32 hinv hgs hg hmy

theorem votes_of_async {fast : Bool} (hacc : asyncValidateP1Replies c.config dec fast T d gs myId my = true) :
    Votes c T d w (p1QuorumSize c.config dec fast) dec ∨ (know c T d w).cert dec := by
  refine votes_of_backed ht hinv (asyncValidateP1Replies_sound hgs h32 hacc) hg ?_
  rintro r' ⟨hvote, rfl⟩
  have hres := hmy _ hvote
  refine ⟨?_, ?_⟩
  · rintro rfl
    exact hres
  · rintro rfl
    exact .inl ⟨.abstain, hres, by decide, by decide⟩

theorem voted_of_async (hacc : asyncValidateP1Replies c.config dec false T d gs myId my = true) :
    (know c T d w).voted dec :=
  (votes_of_async ht h32 hinv hgs hg hmy hacc).elim id (voted_of_cert ht hinv)

theorem cert_of_async (hacc : asyncValidateP1Replies c.config dec true T d gs myId my = true) :
    (know c T d w).cert dec :=
  (votes_of_async ht h32 hinv hgs hg hmy hacc).elim .inl id

end

theorem wire_phase2Decision (g v : Nat) : (phase2Decision dec d g v).wire.decision 1 = dec ∧
    (phase2Decision dec d g v).wire.bytes 2 = d := by
  cases dec <;> exact ⟨rfl, rfl⟩

theorem wire_electMessage (q : Nat) :
    (electMessage q d dec v).wire.decision 3 = dec ∧ (electMessage q d dec v).wire.varint 4 = v ∧
      (electMessage q d dec v).wire.bytes 2 = d := by
  cases dec <;> exact ⟨rfl, rfl, rfl⟩

theorem voted_of_replies (ht : c.Tolerant) (hinv : ClusterInv c T d w)
    {replies : List SignedMessage} {my : Option CommitDecision}
    (hp : ∀ m ∈ replies, InLogGroup c T d m.processId ∧ m.signature.body.isPhase2Decision = true)
    (hg : ∀ m ∈ replies, genuine c w m.signature = true) (hmy : my = some dec → (know c T d w).voted dec)
    (hacc : asyncValidateFBP2Replies c.config dec T d replies myId my = true) : (know c T d w).voted dec := by
  by_cases hown : my = some dec
  · exact hmy hown
  obtain ⟨l, hl, hnd, hlen⟩ := asyncValidateFBP2Replies_sound hacc
  have hsigned : ∀ m ∈ l, c.byzantine m.processId = false →
      ∃ v, setP2 (c.server m.processId) d dec v ∈ (w m.processId d).logger.signed := by
    intro m hm hbyz
    obtain ⟨hmem, hdec, hdig, hcount⟩ := hl m hm
    obtain ⟨hsigner, hwire⟩ := hcount.resolve_left fun h => hown h.1
    have hgen := hg m hmem
    cases hbody : m.signature.body with
    | phase2Decision dec' d' g' v' =>
      rw [hbody] at hwire
      rw [← hwire, (wire_phase2Decision g' v').1] at hdec
      rw [← hwire, (wire_phase2Decision g' v').2] at hdig
      subst hdec hdig
      have hgen' : genuine c w ⟨m.processId, .phase2Decision dec' d' g' v'⟩ = true := by
        rw [← hsigner, ← hbody]
        exact hgen
      have hmem' := ballot_of_genuine hbyz rfl rfl hgen'
      rcases (hinv _ hbyz).own _ hmem' with ⟨dec₁, v₁, heq⟩ | ⟨dec₁, v₁, heq⟩
      · refine ⟨v₁, ?_⟩
        rw [heq] at hmem'
        simp only [setP2, phase2Decision.injEq] at heq
        rw [heq.1]
        exact hmem'
      · cases heq
    | _ =>
      have hkind := (hp m hmem).2
      rw [hbody] at hkind
      cases hkind
  obtain ⟨L, -, hatt⟩ := attested_of_logGroup ht (P := fun r => ∃ v, setP2 (c.server r) d dec v ∈ (w r d).logger.signed)
    hnd hlen hsigned (Nat.succ_pos _) fun m hm => (hp m (hl m hm).1).1
  obtain ⟨r', -, hr', v, hmem⟩ := hatt.exists_correct (ht.faulty _) (Nat.lt_succ_self _)
  rw [Bool.not_eq_true] at hr'
  exact (hinv r' hr').ballots.signed dec v hmem

/-! ## The tasks of a replica -/

theorem server_id : (c.server r).id = r := Nat.div_add_mod' r c.config.n

theorem Phase2FB.mem_sigs_votes {m : Phase2FB} (h : m.p1Sigs = some gs) (hs : s ∈ gs.sigs) : s ∈ m.sigs := by
  rw [Phase2FB.sigs, h]
  exact mem_append_left _ hs

theorem Phase2FB.mem_sigs_replies {m : Phase2FB} {replies : List SignedMessage}
    (h : m.p2Replies = some replies) {r : SignedMessage} (hr : r ∈ replies) : r.signature ∈ m.sigs := by
  rw [Phase2FB.sigs, h]
  exact mem_append_right _ (mem_map_of_mem hr)

namespace TaskInv

variable {nd : Node} {t : Task}

theorem invoke_sigs {msg : InvokeFB} {p2fb : Phase2FB} (h : msg.p2fb = some p2fb)
    (hs : s ∈ p2fb.sigs) : s ∈ (Message.invokeFB msg).sigs := by
  rw [Message.sigs, h]
  exact mem_append_left _ hs

/-- What a task logs was voted for. -/
theorem logs_voted (hi : TaskInv c T d w (know c T d w) r (w r d) t) (ht : c.Tolerant)
    (h32 : ∀ g ∈ T.involvedGroups, g < 2 ^ 32) (hinv : ClusterInv c T d w)
    (hacc : t.accepted (c.server r) d = true) (hl : t.logs = some dec) : (know c T d w).voted dec := by
  cases t with
  | phase2 msg txn my =>
    cases hl
    rw [Task.accepted, server_id, hi.txn txn rfl] at hacc
    have hmsg := hi.message _ rfl
    exact voted_of_async ht h32 hinv hmsg.proper hmsg.genuine (fun res h => (hi.vote res h).1) hacc
  | p2fbReplies msg txn replies my =>
    cases hl
    rw [Task.accepted, server_id, hi.txn txn rfl] at hacc
    have hmsg := hi.message _ rfl
    exact voted_of_replies ht hinv (hmsg.proper.2 replies hi.fromMessage)
      (fun m hm => hmsg.genuine _ (Phase2FB.mem_sigs_replies hi.fromMessage hm)) (hi.decision _) hacc
  | p2fbVotes msg txn sigs my =>
    cases hl
    rw [Task.accepted, server_id, hi.txn txn rfl] at hacc
    have hmsg := hi.message _ rfl
    exact voted_of_async ht h32 hinv (hmsg.proper.1 sigs hi.fromMessage)
      (fun s hs => hmsg.genuine _ (Phase2FB.mem_sigs_votes hi.fromMessage hs))
      (fun res h => (hi.vote res h).1) hacc
  | invokeReplies msg p2fb txn replies my =>
    cases hl
    rw [Task.accepted, server_id, hi.txn txn rfl] at hacc
    have hmsg := hi.message _ rfl
    obtain ⟨hp2fb, hreplies⟩ := hi.fromMessage
    exact voted_of_replies ht hinv ((hmsg.proper p2fb hp2fb).2 replies hreplies)
      (fun m hm => hmsg.genuine _ (invoke_sigs hp2fb (Phase2FB.mem_sigs_replies hreplies hm)))
      (hi.decision _) hacc
  | invokeVotes msg p2fb txn sigs my =>
    cases hl
    rw [Task.accepted, server_id, hi.txn txn rfl] at hacc
    have hmsg := hi.message _ rfl
    obtain ⟨hp2fb, hsigs⟩ := hi.fromMessage
    exact voted_of_async ht h32 hinv ((hmsg.proper p2fb hp2fb).1 sigs hsigs)
      (fun s hs => hmsg.genuine _ (invoke_sigs hp2fb (Phase2FB.mem_sigs_votes hsigs hs)))
      (fun res h => (hi.vote res h).1) hacc
  | _ => cases hl

theorem cert_of_proof (ht : c.Tolerant) {view : Nat}
    {my : Option CommitDecision} (hp : ProperSigs c T d dec (.p2 gs view)) (hg : ∀ s ∈ gs.sigs, genuine c w s = true)
    (hacc : asyncValidateP2Replies c.config dec view T d gs myId my = true) : (know c T d w).cert dec := by
  exact .inr ⟨view, decided_of_distinct ht (asyncValidateP2Replies_sound hacc) hp hg⟩

section

variable (hi : TaskInv c T d w (know c T d w) r (w r d) t) (ht : c.Tolerant) (h32 : ∀ g ∈ T.involvedGroups, g < 2 ^ 32)
  (hinv : ClusterInv c T d w) (hacc : t.accepted (c.server r) d = true)
include hi ht h32 hinv hacc

theorem writeback_cert {wb : Writeback} (hm : t.message d = some (.writeback wb))
    (hc : wb.hasCert = true) : (know c T d w).cert wb.decision := by
  have hmsg := hi.message _ hm
  cases t with
  | writebackP1 msg txn sigs my =>
    cases hm
    rw [Task.accepted, server_id, hi.txn txn rfl] at hacc
    have hsigs : wb.sigs = .p1 sigs := hi.fromMessage
    have hp := hmsg.proper
    have hg := hmsg.genuine
    rw [Message.Proper, hsigs] at hp
    rw [Message.sigs, hsigs] at hg
    exact cert_of_async ht h32 hinv hp hg (fun res h => (hi.vote res h).1) hacc
  | writebackP2 msg txn sigs view my =>
    cases hm
    rw [Task.accepted, server_id, hi.txn txn rfl] at hacc
    have hsigs : wb.sigs = .p2 sigs (some view) := hi.fromMessage
    have hp := hmsg.proper
    have hg := hmsg.genuine
    rw [Message.Proper, hsigs] at hp
    rw [Message.sigs, hsigs] at hg
    exact cert_of_proof ht hp hg hacc
  | writebackConflict msg txn proof =>
    cases hm
    have hsigs : wb.sigs = .conflict proof := hi.fromMessage.1
    rw [Writeback.hasCert, hsigs] at hc
    cases hc
  | _ => cases hm

/-- What a task commits has a certificate. -/
theorem commits_cert {proof : CommittedProof} (hc : t.commits = some proof) : (know c T d w).cert .commit := by
  have hwb : ∀ msg, t.message d = some (.writeback msg) → msg.decision = .commit → msg.hasCert = true →
      (know c T d w).cert .commit := fun msg hm hd hc => hd ▸ hi.writeback_cert ht h32 hinv hacc hm hc
  cases t with
  | writebackP1 msg txn sigs my =>
    have hsigs : msg.sigs = .p1 sigs := hi.fromMessage
    exact hwb msg rfl (ite_none_right_eq_some.mp hc).1 (by rw [Writeback.hasCert, hsigs])
  | writebackP2 msg txn sigs view my =>
    have hsigs : msg.sigs = .p2 sigs (some view) := hi.fromMessage
    exact hwb msg rfl (ite_none_right_eq_some.mp hc).1 (by rw [Writeback.hasCert, hsigs])
  | writebackConflict msg txn proof' =>
    have hdec : msg.decision = .abort := hi.fromMessage.2
    simp [Task.commits, hdec] at hc
  | supply proof' =>
    cases hc
    have hmsg := hi.message _ rfl
    have hgen : proof.txn.isGenesis = false := hi.fromMessage
    have htxn : proof.txn = T := hmsg.txns _ (mem_singleton_self _)
    rw [Task.accepted, asyncValidateCommittedProof, hgen, Bool.false_or, htxn] at hacc
    have hp := hmsg.proper
    have hg := hmsg.genuine
    simp only [Message.Proper, Message.sigs] at hp hg
    cases hsigs : proof.sigs with
    | p1 sigs =>
      rw [hsigs] at hacc hp hg
      exact cert_of_async ht h32 hinv hp hg (fun res h => (by cases h)) hacc
    | p2 sigs view =>
      rw [hsigs] at hacc hp hg
      exact cert_of_proof ht hp hg hacc
    | none =>
      rw [hsigs] at hacc
      cases hacc
  | _ => cases hc

theorem aborts_cert {wb : Writeback} (hb : t.aborts = some wb)
    (hc : wb.hasCert = true) : (know c T d w).cert .abort := by
  have haborts : ∀ msg : Writeback, (if msg.decision = .abort then some msg else none) = some wb →
      msg = wb ∧ wb.decision = .abort := by
    intro msg h
    obtain ⟨hdec, heq⟩ := ite_none_right_eq_some.mp h
    cases heq
    exact ⟨rfl, hdec⟩
  have hboth : t.message d = some (.writeback wb) ∧ wb.decision = .abort := by
    cases t with
    | writebackP1 msg txn sigs my | writebackP2 msg txn sigs view my | writebackConflict msg txn proof =>
      obtain ⟨rfl, hdec⟩ := haborts msg hb
      exact ⟨rfl, hdec⟩
    | _ => cases hb
  exact hboth.2 ▸ hi.writeback_cert ht h32 hinv hacc hboth.1 hc

end

theorem counts_sig (hi : TaskInv c T d w (know c T d w) r (w r d) t) (hinv : ClusterInv c T d w)
    (hr : c.byzantine r = false) (hacc : t.accepted (c.server r) d = true)
    {s : Signature} (hc : t.counts (c.server r) d = some (v, dec, s)) : SigInv c T d w v dec s := by
  cases t with
  | elect msg =>
    cases hc
    have hmsg := hi.message _ rfl
    obtain ⟨hmember, hkind⟩ := hmsg.proper
    obtain ⟨hsigner, hwire⟩ := verify_iff.mp hacc
    have hdig : msg.data.bytes 2 = d := hmsg.digest
    refine ⟨hmember, hsigner, ?_, hmsg.genuine _ (mem_singleton_self _)⟩
    cases hbody : msg.signature.body with
    | electMessage q d' dec' v' =>
      rw [hbody] at hwire
      obtain ⟨hdec, hview, hdig'⟩ := wire_electMessage q
      rw [← hwire, hdig'] at hdig
      rw [← hwire, hdec, hview, hdig]
      exact ⟨q, rfl⟩
    | _ =>
      rw [hbody] at hkind
      cases hkind
  | ownElect view dec' =>
    cases hc
    have hsigned := hi.ownElect _ _ rfl
    refine ⟨?_, rfl, ⟨0, rfl⟩, ?_⟩
    · rw [server_id]
      exact (hinv r hr).member _ _ hsigned
    · rw [server_id]
      exact genuine_iff.mpr (.inr (mem_filter.mp hsigned).1)
  | _ => cases hc

/-- What a task adopts has won an election. -/
theorem adopts_elected (hi : TaskInv c T d w (know c T d w) r (w r d) t) (ht : c.Tolerant)
    (hinv : ClusterInv c T d w) (hr : c.byzantine r = false) (hacc : t.accepted (c.server r) d = true)
    (hnd : ∀ v dec s, t.counts (c.server r) d = some (v, dec, s) →
      ((w r d).state.electSigs v dec).length = 2 * c.config.f →
      (((w r d).state.electSigs v dec ++ [s]).map Signature.processId).Nodup)
    (ha : t.adopts (c.server r) d (w r d).state = some (v, dec)) :
    Elected c T d w dec v := by
  have hleader : ∀ v' dec' s, t.counts (c.server r) d = some (v', dec', s) →
      (if ((w r d).state.electSigs v' dec').length = 2 * c.config.f then some (v', dec') else none) =
        some (v, dec) → Elected c T d w dec v := by
    intro v' dec' s hc hif
    obtain ⟨hlen, heq⟩ := ite_none_right_eq_some.mp hif
    cases heq
    exact elected_of_sigs ht hinv (hnd v dec s hc hlen) (by rw [length_append, hlen]; rfl)
      (forall_mem_append.mpr ⟨(hinv r hr).sigs v dec, forall_mem_singleton.mpr (hi.counts_sig hinv hr hacc hc)⟩)
  cases t with
  | decision msg txn my =>
    cases ha
    have hmsg := hi.message _ rfl
    obtain ⟨l, hl, hnodup, hlen⟩ := asyncValidateFBDecision_sound hacc
    refine elected_of_sigs ht hinv hnodup hlen fun s hs => ?_
    obtain ⟨hmember, hsig⟩ := hmsg.proper s (hl s hs)
    exact ⟨hmember, by rw [hsig], ⟨0, by rw [hsig]⟩, hmsg.genuine _ (mem_map_of_mem (hl s hs))⟩
  | elect msg => exact hleader _ _ _ rfl ha
  | ownElect view dec' => exact hleader _ _ _ rfl ha
  | _ => cases ha

end TaskInv

end Pequin
