import TallyOwl.Cluster.Election
import Mathlib.Order.WellFounded

/-! What a vote hold protects. A commit is kept by the voters that acknowledged it, until a
leader that lacks it writes over it; a later leader has the vote of one of them. The voter
that lost its disk keeps nothing while it holds its votes, and everything again once a leader
that is not superseded brought it past what it had acknowledged. -/
namespace TallyOwl.Election
open Lib Raft List

/-- What a voter has to keep: what it acknowledged. Of a voter that lost its disk, only what
was committed with it. -/
def Owed (world : World) (voter : Nat) (ballot : Ballot) (count : Nat) : Prop :=
  (world.lost ≠ some voter ∧ (⟨voter, ballot, count⟩ : Ack) ∈ world.acks) ∨
    ∃ commit ∈ world.committed, commit.ballot = ballot ∧ voter ∈ commit.quorum ∧
      count = commit.entries.length

def Replica.Seen (replica : Replica) (ballot : Ballot) : Prop :=
  ballot < replica.ballot ∨ ballot = replica.ballot ∧ replica.accepted = true

def Carried (world : World) (front : List Entry) (ballot : Ballot) : Prop :=
  world.canon ballot ≠ none → ∀ request ∈ world.requests, request.ballot = ballot → front <+: request.log

structure Local (world : World) (voter : Nat) (replica : Replica) : Prop where
  matched : Matches ballotOf world.canon replica.log
  below : ∀ entry ∈ replica.log, ballotOf entry ≤ replica.ballot
  top_le : replica.ballot ≤ replica.top
  top_eq : replica.holding = false → replica.ballot = replica.top
  held : replica.holding = true → world.lost = some voter
  candidate : replica.role = .candidate → holder replica.ballot = voter ∧ replica.holding = false ∧
    ⟨replica.ballot, replica.log⟩ ∈ world.requests ∧ world.canon replica.ballot = none
  leader : replica.role = .leader → holder replica.ballot = voter ∧ replica.holding = false ∧
    replica.accepted = true ∧ world.canon replica.ballot = some replica.log
  bound : ∀ ballot count, Owed world voter ballot count → ballot ≤ replica.top
  kept : replica.holding = false → ∀ ballot count whole front, Owed world voter ballot count →
    world.canon ballot = some whole → front <+: whole → front.length ≤ count →
      (∀ c, ballot < c → replica.Seen c → Carried world front c) → front <+: replica.log

structure LeaderFine (members : Finset Nat) (world : World) (ballot : Ballot) (whole : List Entry) : Prop where
  matched : Matches ballotOf world.canon whole
  below : ∀ entry ∈ whole, ballotOf entry ≤ ballot
  asked : ∃ request ∈ world.requests, request.ballot = ballot ∧ request.log <+: whole
  elected : ∃ quorum, Majority members quorum ∧ ∀ voter ∈ quorum, ∃ grant ∈ world.grants,
    grant.voter = voter ∧ grant.ballot = ballot

structure RequestFine (world : World) (request : VoteRequest) : Prop where
  matched : Matches ballotOf world.canon request.log
  below : ∀ entry ∈ request.log, ballotOf entry < request.ballot
  top : request.ballot ≤ (world.voters (holder request.ballot)).top

structure GrantFine (world : World) (grant : Grant) : Prop where
  matched : Matches ballotOf world.canon grant.log
  top : grant.ballot ≤ (world.voters grant.voter).top
  asked : ∃ request ∈ world.requests, request.ballot = grant.ballot ∧
    upToDate ballotOf request.log grant.log = true
  kept : ∀ ballot count whole front, Owed world grant.voter ballot count → ballot < grant.ballot →
    world.canon ballot = some whole → front <+: whole → front.length ≤ count →
      (∀ c, ballot < c → c < grant.ballot → Carried world front c) → front <+: grant.log

def AppendFine (world : World) (request : AppendRequest) : Prop :=
  ∃ whole base, world.canon request.ballot = some whole ∧ base.length = request.prev ∧
    base ++ request.entries <+: whole ∧ ballotAt base request.prev = request.prevBallot

def AckFine (world : World) (ack : Ack) : Prop :=
  ∃ whole, world.canon ack.ballot = some whole ∧ ack.count ≤ whole.length

structure CommitFine (members : Finset Nat) (world : World) (commit : Commit) : Prop where
  majority : Majority members commit.quorum
  made : ∃ whole, world.canon commit.ballot = some whole ∧ commit.entries <+: whole
  last : ∃ entry, commit.entries.getLast? = some entry ∧ ballotOf entry = commit.ballot

structure Shared (members : Finset Nat) (world : World) : Prop where
  leaders : ∀ ballot whole, world.canon ballot = some whole → LeaderFine members world ballot whole
  requests : ∀ request ∈ world.requests, RequestFine world request
  one : ∀ first ∈ world.requests, ∀ second ∈ world.requests, first.ballot = second.ballot → first = second
  grants : ∀ grant ∈ world.grants, GrantFine world grant
  appends : ∀ request ∈ world.appends, AppendFine world request
  acks : ∀ ack ∈ world.acks, AckFine world ack
  committed : ∀ commit ∈ world.committed, CommitFine members world commit

section
variable {members : Finset Nat} {world : World}

variable {ballot : Ballot}

theorem Shared.owed (shared : Shared members world) {voter : Nat} {count : Nat} (owed : Owed world voter ballot count) :
    ∃ whole, world.canon ballot = some whole ∧ count ≤ whole.length := by
  rcases owed with ⟨-, inside⟩ | ⟨commit, inside, rfl, -, rfl⟩
  · exact shared.acks _ inside
  · obtain ⟨whole, is, within⟩ := (shared.committed commit inside).made
    exact ⟨whole, is, within.length_le⟩

theorem Shared.carries (shared : Shared members world) {whole front : List Entry}
    (is : world.canon ballot = some whole) (carried : Carried world front ballot) : front <+: whole := by
  obtain ⟨request, inside, same, within⟩ := (shared.leaders ballot whole is).asked
  exact (carried (by simp [is]) request inside same).trans within

theorem Shared.complete (shared : Shared members world) {whole front : List Entry}
    {quorum : Finset Nat} {entry : Entry} (majority : Majority members quorum)
    (owed : ∀ voter ∈ quorum, ∃ count, front.length ≤ count ∧ Owed world voter ballot count)
    (is : world.canon ballot = some whole) (within : front <+: whole)
    (last : front.getLast? = some entry) (made : ballotOf entry = ballot) :
    ∀ c, ballot < c → Carried world front c := by
  intro c
  induction c using WellFoundedLT.induction with
  | ind c ih =>
    intro later elected request inside same
    obtain ⟨writer, led⟩ := Option.ne_none_iff_exists'.mp elected
    obtain ⟨quorum', majority', voted⟩ := (shared.leaders c writer led).elected
    -- A voter of both majorities had the front when it voted.
    obtain ⟨voter, both⟩ : (quorum ∩ quorum').Nonempty := by
      refine Finset.inter_nonempty_of_card_lt_card_add_card majority.1 majority'.1 ?_
      have := majority.2
      have := majority'.2
      omega
    obtain ⟨count, enough, owes⟩ := owed voter (Finset.mem_inter.mp both).1
    obtain ⟨grant, given, rfl, rfl⟩ := voted voter (Finset.mem_inter.mp both).2
    have fine := shared.grants grant given
    have had : front <+: grant.log := fine.kept ballot count whole front owes later is within enough
      fun c' after before => ih c' before after
    obtain ⟨request', inside', same', newer⟩ := fine.asked
    obtain rfl := shared.one request inside request' inside' (same.trans same'.symm)
    have asked := shared.requests request inside
    refine prefix_of_upToDate asked.matched fine.matched newer had last made ?_ asked.below ?_
    · intro old there
      exact (shared.leaders ballot whole is).below old (within.subset there)
    · intro c' writer' is' after before
      rw [same] at before
      exact shared.carries is' (ih c' before after)

theorem Shared.commit_carried (shared : Shared members world) {commit : Commit}
    (inside : commit ∈ world.committed) : ∀ c, commit.ballot < c → Carried world commit.entries c := by
  have fine := shared.committed commit inside
  obtain ⟨whole, is, within⟩ := fine.made
  obtain ⟨entry, last, made⟩ := fine.last
  refine shared.complete fine.majority (fun voter counted => ?_) is within last made
  exact ⟨commit.entries.length, le_refl _, .inr ⟨commit, inside, rfl, counted, rfl⟩⟩

end

/-- What a step can do to what was there: logs and messages are only added to, and what a
voter newly owes is no older than any ballot it took part in. -/
structure Extends (world world' : World) : Prop where
  grows : Grows world.canon world'.canon
  asked : ∀ request ∈ world.requests, request ∈ world'.requests
  granted : ∀ grant ∈ world.grants, grant ∈ world'.grants
  tops : ∀ voter, (world.voters voter).top ≤ (world'.voters voter).top
  owed : ∀ voter ballot count, Owed world' voter ballot count →
    (∃ more, count ≤ more ∧ Owed world voter ballot more) ∨ (world.voters voter).top ≤ ballot

section
variable {members : Finset Nat} {world world' : World}

variable {ballot : Ballot}

theorem Carried.before (extends_ : Extends world world') {front : List Entry}
    (carried : Carried world' front ballot) : Carried world front ballot := by
  intro elected request inside same
  obtain ⟨whole, is⟩ := Option.ne_none_iff_exists'.mp elected
  obtain ⟨longer, is', -⟩ := extends_.grows ballot whole is
  exact carried (by simp [is']) request (extends_.asked request inside) same

theorem Shared.front_before (shared : Shared members world) (grows : Grows world.canon world'.canon)
    {voter : Nat} {count : Nat} {whole' front : List Entry}
    (owed : Owed world voter ballot count) (is' : world'.canon ballot = some whole') (within : front <+: whole')
    (short : front.length ≤ count) : ∃ whole, world.canon ballot = some whole ∧ front <+: whole := by
  obtain ⟨whole, is, long⟩ := shared.owed owed
  obtain ⟨longer, again, further⟩ := grows ballot whole is
  rw [is'] at again
  cases again
  exact ⟨whole, is, prefix_of_prefix_length_le within further (short.trans long)⟩

theorem LeaderFine.frame {whole : List Entry} (fine : LeaderFine members world ballot whole)
    (extends_ : Extends world world') : LeaderFine members world' ballot whole := by
  refine ⟨fine.matched.grows extends_.grows, fine.below, ?_, ?_⟩
  · obtain ⟨request, inside, rest⟩ := fine.asked
    exact ⟨request, extends_.asked request inside, rest⟩
  · obtain ⟨quorum, majority, voted⟩ := fine.elected
    refine ⟨quorum, majority, fun voter counted => ?_⟩
    obtain ⟨grant, inside, rest⟩ := voted voter counted
    exact ⟨grant, extends_.granted grant inside, rest⟩

theorem RequestFine.frame {request : VoteRequest} (fine : RequestFine world request)
    (extends_ : Extends world world') : RequestFine world' request :=
  ⟨fine.matched.grows extends_.grows, fine.below, fine.top.trans (extends_.tops _)⟩

theorem GrantFine.frame {grant : Grant} (fine : GrantFine world grant) (shared : Shared members world)
    (extends_ : Extends world world') : GrantFine world' grant := by
  refine ⟨fine.matched.grows extends_.grows, fine.top.trans (extends_.tops _), ?_, ?_⟩
  · obtain ⟨request, inside, rest⟩ := fine.asked
    exact ⟨request, extends_.asked request inside, rest⟩
  · intro ballot count whole' front owed later is' within short carried
    rcases extends_.owed _ _ _ owed with ⟨more, enough, owed⟩ | top
    · obtain ⟨whole, is, within⟩ := shared.front_before extends_.grows owed is' within (short.trans enough)
      exact fine.kept ballot more whole front owed later is within (short.trans enough)
        fun c after before => (carried c after before).before extends_
    · exact absurd later (not_lt_of_ge (fine.top.trans top))

theorem AppendFine.frame {request : AppendRequest} (fine : AppendFine world request)
    (extends_ : Extends world world') : AppendFine world' request := by
  obtain ⟨whole, base, is, length, within, behind⟩ := fine
  obtain ⟨longer, is', further⟩ := extends_.grows _ whole is
  exact ⟨longer, base, is', length, within.trans further, behind⟩

theorem AckFine.frame {ack : Ack} (fine : AckFine world ack) (extends_ : Extends world world') :
    AckFine world' ack := by
  obtain ⟨whole, is, short⟩ := fine
  obtain ⟨longer, is', further⟩ := extends_.grows _ whole is
  exact ⟨longer, is', short.trans further.length_le⟩

theorem CommitFine.frame {commit : Commit} (fine : CommitFine members world commit)
    (extends_ : Extends world world') : CommitFine members world' commit := by
  refine ⟨fine.majority, ?_, fine.last⟩
  obtain ⟨whole, is, within⟩ := fine.made
  obtain ⟨longer, is', further⟩ := extends_.grows _ whole is
  exact ⟨longer, is', within.trans further⟩

theorem Shared.extend (shared : Shared members world) (extends_ : Extends world world')
    (leaders : ∀ ballot whole, world'.canon ballot = some whole → world.canon ballot = some whole ∨
      LeaderFine members world' ballot whole)
    (requests : ∀ request ∈ world'.requests, request ∈ world.requests ∨
      RequestFine world' request ∧ ∀ other ∈ world.requests, other.ballot ≠ request.ballot)
    (one : ∀ first ∈ world'.requests, ∀ second ∈ world'.requests, first ∉ world.requests →
      second ∉ world.requests → first = second)
    (grants : ∀ grant ∈ world'.grants, grant ∈ world.grants ∨ GrantFine world' grant)
    (appends : ∀ request ∈ world'.appends, request ∈ world.appends ∨ AppendFine world' request)
    (acks : ∀ ack ∈ world'.acks, ack ∈ world.acks ∨ AckFine world' ack)
    (committed : ∀ commit ∈ world'.committed, commit ∈ world.committed ∨ CommitFine members world' commit) :
    Shared members world' where
  leaders ballot whole is := (leaders ballot whole is).elim
    (fun is => (shared.leaders ballot whole is).frame extends_) id
  requests request inside := (requests request inside).elim
    (fun inside => (shared.requests request inside).frame extends_) And.left
  one first inside second inside' same := by
    by_cases old : first ∈ world.requests
    · by_cases old' : second ∈ world.requests
      · exact shared.one first old second old' same
      · exact absurd same (((requests second inside').resolve_left old').2 first old)
    · by_cases old' : second ∈ world.requests
      · exact absurd same.symm (((requests first inside).resolve_left old).2 second old')
      · exact one first inside second inside' old old'
  grants grant inside := (grants grant inside).elim
    (fun inside => (shared.grants grant inside).frame shared extends_) id
  appends request inside := (appends request inside).elim
    (fun inside => (shared.appends request inside).frame extends_) id
  acks ack inside := (acks ack inside).elim (fun inside => (shared.acks ack inside).frame extends_) id
  committed commit inside := (committed commit inside).elim
    (fun inside => (shared.committed commit inside).frame extends_) id

theorem Local.frame {voter : Nat} {replica : Replica} (own : Local world voter replica)
    (shared : Shared members world) (extends_ : Extends world world')
    (owed : ∀ ballot count, Owed world' voter ballot count → ∃ more, count ≤ more ∧ Owed world voter ballot more)
    (lost : world.lost = some voter → world'.lost = some voter)
    (canon : holder replica.ballot = voter → world'.canon replica.ballot = world.canon replica.ballot) :
    Local world' voter replica where
  matched := own.matched.grows extends_.grows
  below := own.below
  top_le := own.top_le
  top_eq := own.top_eq
  held is := lost (own.held is)
  candidate is := by
    obtain ⟨mine, free, inside, none⟩ := own.candidate is
    exact ⟨mine, free, extends_.asked _ inside, (canon mine).trans none⟩
  leader is := by
    obtain ⟨mine, free, accepted, led⟩ := own.leader is
    exact ⟨mine, free, accepted, (canon mine).trans led⟩
  bound ballot count owes := by
    obtain ⟨more, -, owes⟩ := owed ballot count owes
    exact own.bound ballot more owes
  kept free ballot count whole' front owes is' within short carried := by
    obtain ⟨more, enough, owes⟩ := owed ballot count owes
    obtain ⟨whole, is, within⟩ := shared.front_before extends_.grows owes is' within (short.trans enough)
    exact own.kept free ballot more whole front owes is within (short.trans enough)
      fun c after seen => (carried c after seen).before extends_

end

structure Sound (members : Finset Nat) (world : World) : Prop where
  shared : Shared members world
  own : ∀ voter, Local world voter (world.voters voter)

section
variable {members : Finset Nat} {world world' : World} {voter : Nat}

variable {replica : Replica}

theorem Local.adopt (own : Local world voter replica) (ballot : Ballot) (accepted : Bool)
    (later : replica.ballot ≤ ballot) (seen : ∀ c, replica.Seen c → (replica.adopt ballot accepted).Seen c) :
    Local world voter (replica.adopt ballot accepted) where
  matched := own.matched
  below entry inside := (own.below entry inside).trans later
  top_le := le_max_right _ _
  top_eq free := by
    show ballot = max replica.top ballot
    rw [← own.top_eq free, max_eq_right later]
  held := own.held
  candidate is := by cases is
  leader is := by cases is
  bound ballot' count owes := (own.bound ballot' count owes).trans (le_max_left _ _)
  kept free ballot' count whole front owes is within short carried :=
    own.kept free ballot' count whole front owes is within short fun c after before =>
      carried c after (seen c before)

theorem Sound.change (sound : Sound members world) (extends_ : Extends world world')
    (shared : Shared members world') (same : ∀ other ≠ voter, world'.voters other = world.voters other)
    (owed : ∀ other ≠ voter, ∀ ballot count, Owed world' other ballot count →
      ∃ more, count ≤ more ∧ Owed world other ballot more)
    (lost : ∀ other ≠ voter, world.lost = some other → world'.lost = some other)
    (canon : ∀ ballot, holder ballot ≠ voter → world'.canon ballot = world.canon ballot)
    (mine : Local world' voter (world'.voters voter)) : Sound members world' := by
  refine ⟨shared, fun other => ?_⟩
  by_cases is : other = voter
  · rw [is]
    exact mine
  · rw [same other is]
    refine (sound.own other).frame sound.shared extends_ (owed other is) (lost other is) fun held => canon _ ?_
    rw [held]
    exact is

theorem tops_update (later : (world.voters voter).top ≤ replica.top) (other : Nat) :
    (world.voters other).top ≤ (Function.update world.voters voter replica other).top := by
  by_cases is : other = voter
  · rw [is, Function.update_self]
    exact later
  · rw [Function.update_of_ne is]

theorem Sound.set (sound : Sound members world) (later : (world.voters voter).top ≤ replica.top)
    (mine : Local world voter replica) : Sound members (world.set voter replica) := by
  have extends_ : Extends world (world.set voter replica) :=
    ⟨fun _ whole is => ⟨whole, is, prefix_refl _⟩, fun _ => id, fun _ => id, tops_update later,
      fun _ _ count owes => .inl ⟨count, le_refl _, owes⟩⟩
  have shared : Shared members (world.set voter replica) :=
    sound.shared.extend extends_ (fun _ _ => .inl) (fun _ => .inl)
      (fun _ inside _ _ new => absurd inside new) (fun _ => .inl) (fun _ => .inl) (fun _ => .inl) (fun _ => .inl)
  refine sound.change extends_ shared (fun other is => Function.update_of_ne is _ _)
    (fun _ _ _ count owes => ⟨count, le_refl _, owes⟩) (fun _ _ => id) (fun _ _ => rfl) ?_
  have framed := mine.frame sound.shared extends_ (fun _ count owes => ⟨count, le_refl _, owes⟩) id fun _ => rfl
  simpa [World.set] using framed

variable {ballot : Ballot}

theorem Sound.observe (sound : Sound members world) (newer : (world.voters voter).ballot < ballot) :
    Sound members (world.set voter ((world.voters voter).adopt ballot false)) := by
  refine sound.set (le_max_left _ _) ((sound.own voter).adopt ballot false newer.le fun c seen => .inl ?_)
  rcases seen with before | ⟨rfl, -⟩
  · exact before.trans newer
  · exact newer

theorem Sound.restart (sound : Sound members world) :
    Sound members (world.set voter { world.voters voter with role := .follower }) := by
  have own := sound.own voter
  refine sound.set (le_refl _) ⟨own.matched, own.below, own.top_le, own.top_eq, own.held, ?_, ?_, own.bound,
    own.kept⟩
  · intro is
    cases is
  · intro is
    cases is

theorem upToDate_self (log : List Entry) : upToDate ballotOf log log = true := by
  unfold upToDate
  cases log.getLast? <;> simp

theorem lt_next (replica : Replica) : replica.ballot < replica.next voter := by
  rw [Prod.Lex.lt_iff]
  exact .inl (Nat.lt_succ_self _)

theorem Sound.campaign (sound : Sound members world) (free : (world.voters voter).holding = false) :
    Sound members { world.set voter
        { (world.voters voter).adopt ((world.voters voter).next voter) false with role := .candidate } with
      requests := world.requests ++ [⟨(world.voters voter).next voter, (world.voters voter).log⟩]
      grants := world.grants ++ [⟨voter, (world.voters voter).next voter, (world.voters voter).log⟩] } := by
  have own := sound.own voter
  have newer : (world.voters voter).ballot < (world.voters voter).next voter := lt_next _
  have unused : ∀ request ∈ world.requests, request.ballot ≠ (world.voters voter).next voter := by
    intro request inside is
    have top := (sound.shared.requests request inside).top
    rw [is] at top
    exact absurd newer (not_lt_of_ge (top.trans (own.top_eq free).ge))
  have seen : ∀ c, (world.voters voter).Seen c → c < (world.voters voter).next voter := by
    rintro c (before | ⟨rfl, -⟩)
    · exact before.trans newer
    · exact newer
  set world' : World := { world.set voter
      { (world.voters voter).adopt ((world.voters voter).next voter) false with role := .candidate } with
    requests := world.requests ++ [⟨(world.voters voter).next voter, (world.voters voter).log⟩]
    grants := world.grants ++ [⟨voter, (world.voters voter).next voter, (world.voters voter).log⟩] } with is
  have mine : world'.voters voter =
      { (world.voters voter).adopt ((world.voters voter).next voter) false with role := .candidate } :=
    Function.update_self ..
  have extends_ : Extends world world' :=
    ⟨fun _ whole is => ⟨whole, is, prefix_refl _⟩, fun _ => mem_append_left _,
      fun _ => mem_append_left _, tops_update (le_max_left _ _),
      fun _ _ count owes => .inl ⟨count, le_refl _, owes⟩⟩
  have shared : Shared members world' := by
    refine sound.shared.extend extends_ (fun _ _ => .inl) ?_ ?_ ?_ (fun _ => .inl) (fun _ => .inl) (fun _ => .inl)
    · intro request inside
      refine (mem_append.mp inside).imp_right fun new => ?_
      obtain rfl := mem_singleton.mp new
      refine ⟨⟨own.matched, fun entry inside => (own.below entry inside).trans_lt newer, ?_⟩, unused⟩
      show _ ≤ (world'.voters voter).top
      rw [mine]
      exact le_max_right _ _
    · intro first inside second inside' new new'
      rw [mem_singleton.mp ((mem_append.mp inside).resolve_left new),
        mem_singleton.mp ((mem_append.mp inside').resolve_left new')]
    · intro grant inside
      refine (mem_append.mp inside).imp_right fun new => ?_
      obtain rfl := mem_singleton.mp new
      refine ⟨own.matched, ?_, ⟨_, mem_append_right _ (mem_singleton_self _), rfl, upToDate_self _⟩, ?_⟩
      · rw [mine]
        exact le_max_right _ _
      · intro ballot count whole front owes _ led within short carried
        exact own.kept free ballot count whole front owes led within short fun c after before =>
          (carried c after (seen c before)).before extends_
  refine sound.change extends_ shared (fun other other_ => Function.update_of_ne other_ _ _)
    (fun _ _ _ count owes => ⟨count, le_refl _, owes⟩) (fun _ _ => id) (fun _ _ => rfl) ?_
  rw [mine]
  have framed := (own.adopt _ false newer.le fun c before => Or.inl (seen c before)).frame sound.shared extends_
    (fun _ count owes => ⟨count, le_refl _, owes⟩) id fun _ => rfl
  refine ⟨framed.matched, framed.below, framed.top_le, framed.top_eq, framed.held, fun _ => ?_, ?_, framed.bound,
    framed.kept⟩
  · refine ⟨rfl, free, mem_append_right _ (mem_singleton_self _), ?_⟩
    by_contra elected
    obtain ⟨whole, led⟩ := Option.ne_none_iff_exists'.mp elected
    obtain ⟨request, inside, same, -⟩ := (sound.shared.leaders _ whole led).asked
    exact unused request inside same
  · intro is
    cases is

theorem Sound.deliverVote (sound : Sound members world) {request : VoteRequest}
    (inside : request ∈ world.requests) (free : (world.voters voter).holding = false)
    (given : (world.voters voter).grants request) :
    Sound members { world.set voter ((world.voters voter).adopt request.ballot false) with
      grants := world.grants ++ [⟨voter, request.ballot, (world.voters voter).log⟩] } := by
  have own := sound.own voter
  obtain ⟨newer, upToDate⟩ := given
  have later : (world.voters voter).ballot ≤ request.ballot := newer.elim le_of_lt fun same => le_of_eq same.1
  have seen : ∀ c, (world.voters voter).Seen c → c < request.ballot := by
    rintro c (before | ⟨rfl, accepted⟩)
    · exact before.trans_le later
    · refine newer.resolve_right fun same => ?_
      rw [same.2] at accepted
      cases accepted
  set world' : World := { world.set voter ((world.voters voter).adopt request.ballot false) with
    grants := world.grants ++ [⟨voter, request.ballot, (world.voters voter).log⟩] }
  have mine : world'.voters voter = (world.voters voter).adopt request.ballot false := Function.update_self ..
  have extends_ : Extends world world' :=
    ⟨fun _ whole is => ⟨whole, is, prefix_refl _⟩, fun _ => id, fun _ => mem_append_left _,
      tops_update (le_max_left _ _), fun _ _ count owes => .inl ⟨count, le_refl _, owes⟩⟩
  have shared : Shared members world' := by
    refine sound.shared.extend extends_ (fun _ _ => .inl) (fun _ => .inl)
      (fun _ inside _ _ new => absurd inside new) ?_ (fun _ => .inl) (fun _ => .inl) (fun _ => .inl)
    intro grant inside'
    refine (mem_append.mp inside').imp_right fun new => ?_
    obtain rfl := mem_singleton.mp new
    refine ⟨own.matched, ?_, ⟨request, inside, rfl, upToDate⟩, ?_⟩
    · rw [mine]
      exact le_max_right _ _
    · intro ballot count whole front owes _ led within short carried
      exact own.kept free ballot count whole front owes led within short fun c after before =>
        (carried c after (seen c before)).before extends_
  refine sound.change extends_ shared (fun other is => Function.update_of_ne is _ _)
    (fun _ _ _ count owes => ⟨count, le_refl _, owes⟩) (fun _ _ => id) (fun _ _ => rfl) ?_
  rw [mine]
  exact (own.adopt _ false later fun c before => .inl (seen c before)).frame sound.shared extends_
    (fun _ count owes => ⟨count, le_refl _, owes⟩) id fun _ => rfl

theorem Sound.lead (sound : Sound members world) {quorum : Finset Nat}
    (candidate : (world.voters voter).role = .candidate) (majority : Majority members quorum)
    (voted : ∀ other ∈ quorum, ∃ grant ∈ world.grants,
      grant.voter = other ∧ grant.ballot = (world.voters voter).ballot) :
    Sound members { world.set voter { world.voters voter with role := .leader, accepted := true } with
      canon := Function.update world.canon (world.voters voter).ballot (some (world.voters voter).log) } := by
  have own := sound.own voter
  obtain ⟨held, free, asked, none⟩ := own.candidate candidate
  set world' : World := { world.set voter { world.voters voter with role := .leader, accepted := true } with
    canon := Function.update world.canon (world.voters voter).ballot (some (world.voters voter).log) }
  have mine : world'.voters voter = { world.voters voter with role := .leader, accepted := true } :=
    Function.update_self ..
  have grows : Grows world.canon world'.canon := by
    refine Grows.update fun whole is => ?_
    rw [none] at is
    cases is
  have extends_ : Extends world world' :=
    ⟨grows, fun _ => id, fun _ => id, tops_update (le_refl _),
      fun _ _ count owes => .inl ⟨count, le_refl _, owes⟩⟩
  have led : world'.canon (world.voters voter).ballot = some (world.voters voter).log := Function.update_self ..
  have shared : Shared members world' := by
    refine sound.shared.extend extends_ ?_ (fun _ => .inl) (fun _ inside _ _ new => absurd inside new)
      (fun _ => .inl) (fun _ => .inl) (fun _ => .inl) (fun _ => .inl)
    intro ballot whole is
    by_cases same : ballot = (world.voters voter).ballot
    · subst same
      rw [led] at is
      cases is
      exact .inr ⟨own.matched.grows extends_.grows, own.below, ⟨_, asked, rfl, prefix_refl _⟩,
        quorum, majority, voted⟩
    · exact .inl (by rwa [show world'.canon ballot = world.canon ballot from Function.update_of_ne same _ _] at is)
  refine sound.change extends_ shared (fun other is => Function.update_of_ne is _ _)
    (fun _ _ _ count owes => ⟨count, le_refl _, owes⟩) (fun _ _ => id) ?_ ?_
  · intro ballot other
    refine Function.update_of_ne ?_ _ _
    rintro rfl
    exact other held
  · rw [mine]
    refine ⟨own.matched.grows extends_.grows, own.below, own.top_le, own.top_eq, own.held, ?_, fun _ =>
      ⟨held, free, rfl, led⟩, own.bound, ?_⟩
    · intro is
      cases is
    · intro _ ballot count whole' front owes is' within short carried
      obtain ⟨whole, is, within⟩ := sound.shared.front_before extends_.grows owes is' within short
      refine own.kept free ballot count whole front owes is within short fun c after before => ?_
      refine (carried c after ?_).before extends_
      exact before.imp_right fun same => ⟨same.1, rfl⟩

variable {count : Nat}

theorem owed_ack (world world' : World) {ack : Ack} (lost : world'.lost = world.lost) (acks : world'.acks = world.acks ++ [ack])
    (committed : world'.committed = world.committed) {other : Nat} (owes : Owed world' other ballot count) :
    Owed world other ballot count ∨ world.lost ≠ some other ∧ ack = ⟨other, ballot, count⟩ := by
  rw [Owed, lost, acks, committed] at owes
  rcases owes with ⟨present, inside⟩ | commit
  · rcases mem_append.mp inside with old | new
    · exact .inl (.inl ⟨present, old⟩)
    · exact .inr ⟨present, (mem_singleton.mp new).symm⟩
  · exact .inl (.inr commit)

theorem ballotOf_proposed (replica : Replica) (payload : EntryPayload) :
    ballotOf ⟨⟨(ofLex replica.ballot).1, (ofLex replica.ballot).2, replica.log.length⟩, payload⟩ =
      replica.ballot := rfl

theorem Sound.propose (sound : Sound members world) (payload : EntryPayload)
    (leader : (world.voters voter).role = .leader) :
    Sound members { world.set voter { world.voters voter with log := (world.voters voter).proposed payload } with
      canon := Function.update world.canon (world.voters voter).ballot
        (some ((world.voters voter).proposed payload))
      acks := world.acks ++ [⟨voter, (world.voters voter).ballot, (world.voters voter).log.length + 1⟩] } := by
  have own := sound.own voter
  obtain ⟨held, free, accepted, led⟩ := own.leader leader
  set world' : World :=
    { world.set voter { world.voters voter with log := (world.voters voter).proposed payload } with
      canon := Function.update world.canon (world.voters voter).ballot
        (some ((world.voters voter).proposed payload))
      acks := world.acks ++ [⟨voter, (world.voters voter).ballot, (world.voters voter).log.length + 1⟩] }
  have mine : world'.voters voter = { world.voters voter with log := (world.voters voter).proposed payload } :=
    Function.update_self ..
  have longer : (world.voters voter).log <+: (world.voters voter).proposed payload := prefix_append _ _
  have grows : Grows world.canon world'.canon := by
    refine Grows.update fun whole is => ?_
    rw [led] at is
    cases is
    exact longer
  have leads : world'.canon (world.voters voter).ballot = some ((world.voters voter).proposed payload) :=
    Function.update_self ..
  have owed : ∀ other ballot count, Owed world' other ballot count → Owed world other ballot count ∨
      other = voter ∧ ballot = (world.voters voter).ballot := by
    intro other ballot count owes
    refine (owed_ack world world' rfl rfl rfl owes).imp_right fun new => ?_
    injection new.2 with is made
    exact ⟨is.symm, made.symm⟩
  have extends_ : Extends world world' := by
    refine ⟨grows, fun _ => id, fun _ => id, tops_update (le_refl _), fun other ballot count owes => ?_⟩
    refine (owed other ballot count owes).imp (fun owes => ⟨count, le_refl _, owes⟩) ?_
    rintro ⟨rfl, rfl⟩
    exact (own.top_eq free).ge
  have matched : Matches ballotOf world'.canon ((world.voters voter).proposed payload) :=
    own.matched.push own.below grows leads
  have below : ∀ entry ∈ (world.voters voter).proposed payload, ballotOf entry ≤ (world.voters voter).ballot := by
    intro entry inside
    rcases mem_append.mp inside with old | new
    · exact own.below entry old
    · rw [mem_singleton.mp new, ballotOf_proposed]
  have shared : Shared members world' := by
    refine sound.shared.extend extends_ ?_ (fun _ => .inl) (fun _ inside _ _ new => absurd inside new)
      (fun _ => .inl) (fun _ => .inl) ?_ (fun _ => .inl)
    · intro ballot whole is
      by_cases same : ballot = (world.voters voter).ballot
      · subst same
        rw [leads] at is
        cases is
        have fine := (sound.shared.leaders _ _ led).frame extends_
        obtain ⟨request, inside, same, within⟩ := fine.asked
        exact .inr ⟨matched, below, ⟨request, inside, same, within.trans longer⟩, fine.elected⟩
      · exact .inl (by rwa [show world'.canon ballot = world.canon ballot from Function.update_of_ne same _ _] at is)
    · intro ack inside
      refine (mem_append.mp inside).imp_right fun new => ?_
      obtain rfl := mem_singleton.mp new
      exact ⟨_, leads, by simp [Replica.proposed]⟩
  refine sound.change extends_ shared (fun other is => Function.update_of_ne is _ _) ?_ (fun _ _ => id) ?_ ?_
  · intro other is ballot count owes
    exact ⟨count, le_refl _, (owed other ballot count owes).resolve_right fun new => is new.1⟩
  · intro ballot other
    refine Function.update_of_ne ?_ _ _
    rintro rfl
    exact other held
  · rw [mine]
    refine ⟨matched, below, own.top_le, own.top_eq, own.held, ?_, fun _ => ⟨held, free, accepted, leads⟩, ?_, ?_⟩
    · intro is
      rw [show (world.voters voter).role = .candidate from is] at leader
      cases leader
    · intro ballot count owes
      rcases owed voter ballot count owes with owes | ⟨-, rfl⟩
      · exact own.bound ballot count owes
      · exact own.top_le
    · intro _ ballot count whole' front owes is' within short carried
      by_cases same : ballot = (world.voters voter).ballot
      · subst same
        rw [leads] at is'
        cases is'
        exact within
      · have owes := (owed voter ballot count owes).resolve_right fun new => same new.2
        obtain ⟨whole, is, within⟩ := sound.shared.front_before grows owes is' within short
        refine (own.kept free ballot count whole front owes is within short fun c after before => ?_).trans longer
        exact (carried c after before).before extends_

theorem ballotAt_take (log : List Entry) (count : Nat) : ballotAt (log.take count) count = ballotAt log count := by
  cases count with
  | zero => rfl
  | succ count => simp [ballotAt]

theorem Sound.send (sound : Sound members world) {prev length : Nat}
    (leader : (world.voters voter).role = .leader) (inside : prev + length ≤ (world.voters voter).log.length) :
    Sound members { world with
      appends := world.appends ++ [⟨(world.voters voter).ballot, prev, ballotAt (world.voters voter).log prev,
        ((world.voters voter).log.drop prev).take length, (world.voters voter).commit⟩] } := by
  set world' : World := { world with
    appends := world.appends ++ [⟨(world.voters voter).ballot, prev, ballotAt (world.voters voter).log prev,
      ((world.voters voter).log.drop prev).take length, (world.voters voter).commit⟩] }
  have extends_ : Extends world world' :=
    ⟨fun _ whole is => ⟨whole, is, prefix_refl _⟩, fun _ => id, fun _ => id, fun _ => le_refl _,
      fun _ _ count owes => .inl ⟨count, le_refl _, owes⟩⟩
  have shared : Shared members world' := by
    refine sound.shared.extend extends_ (fun _ _ => .inl) (fun _ => .inl)
      (fun _ inside _ _ new => absurd inside new) (fun _ => .inl) ?_ (fun _ => .inl) (fun _ => .inl)
    intro request there
    refine (mem_append.mp there).imp_right fun new => ?_
    obtain rfl := mem_singleton.mp new
    refine ⟨_, (world.voters voter).log.take prev, ((sound.own voter).leader leader).2.2.2, ?_, ?_,
      ballotAt_take _ _⟩
    · rw [length_take, Nat.min_eq_left (by omega)]
    · rw [← take_add]
      exact take_prefix _ _
  exact ⟨shared, fun other => (sound.own other).frame sound.shared extends_
    (fun _ count owes => ⟨count, le_refl _, owes⟩) id fun _ => rfl⟩

theorem base_of_takes {canon : Ballot → Option (List Entry)} {log whole base : List Entry}
    (matched : Matches ballotOf canon log) (matched' : Matches ballotOf canon whole) (length : base.length = count)
    (within : base <+: whole) (same : ballotAt log count = ballotAt base count) : base <+: log := by
  cases count with
  | zero =>
    rw [length_eq_zero_iff.mp length]
    exact nil_prefix
  | succ count =>
    have low : count < base.length := by omega
    have there : base[count]? = some base[count] := getElem?_eq_getElem low
    rw [ballotAt, ballotAt, there, Option.map_some] at same
    obtain ⟨entry, found, equal⟩ := Option.map_eq_some_iff.mp same
    have shared := matched.agree (matched'.front within) found there equal
    rw [← length, take_length] at shared
    rw [← shared]
    exact take_prefix _ _

variable {request : AppendRequest}

/-- What a voter stores of an append has all of it, is the leader's or what was there, and
lost nothing that the leader has. -/
theorem stored_of_takes {whole base : List Entry}
    (own : Local world voter replica) (later : replica.ballot ≤ request.ballot)
    (led : LeaderFine members world request.ballot whole) (length : base.length = request.prev)
    (within : base ++ request.entries <+: whole) (behind : ballotAt base request.prev = request.prevBallot)
    (takes : replica.takes request) : Matches ballotOf world.canon (replica.stored request) ∧
      (∀ entry ∈ replica.stored request, ballotOf entry ≤ request.ballot) ∧ ∀ front, front <+: whole →
        front <+: replica.log ∨ front.length ≤ request.prev + request.entries.length →
          front <+: replica.stored request := by
  have shared := base_of_takes own.matched led.matched length ((prefix_append _ _).trans within)
    (takes.trans behind.symm)
  have covered : ∀ front, front <+: whole → front.length ≤ request.prev + request.entries.length →
      front <+: base ++ request.entries := by
    intro front ofLeader short
    refine prefix_of_prefix_length_le ofLeader within ?_
    rw [length_append, length]
    exact short
  have stored := store_cases own.matched led.matched shared within
  rw [length] at stored
  rcases stored with ⟨same, all⟩ | ⟨replaced, lacking⟩
  · rw [Replica.stored, same]
    refine ⟨own.matched, fun entry inside => (own.below entry inside).trans later, fun front ofLeader had => ?_⟩
    exact had.elim id fun short => (covered front ofLeader short).trans all
  · rw [Replica.stored, replaced]
    refine ⟨led.matched.front within, fun entry inside => led.below entry (within.subset inside),
      fun front ofLeader had => ?_⟩
    refine had.elim (fun had => ?_) (covered front ofLeader)
    refine (List.prefix_or_prefix_of_prefix ofLeader within).resolve_right fun longer => ?_
    exact lacking (longer.trans had)

theorem Local.free_of_present (own : Local world voter replica)
    (present : world.lost ≠ some voter) : replica.holding = false := by
  by_contra holding
  exact present (own.held (by simpa using holding))

variable {cleared : Bool}

theorem Awaited.released
    (awaited : Awaited world (.deliverAppend voter request cleared)) (takes : (world.voters voter).takes request)
    (holding : (world.voters voter).holding = true)
    (ended : ((world.voters voter).append request cleared).holding = false) :
    (world.voters voter).top ≤ request.ballot ∧ ∀ commit ∈ world.committed, voter ∈ commit.quorum →
      commit.entries.length ≤ request.prev + request.entries.length := by
  have both : (world.voters voter).reaches request ∧ cleared = true := by
    simpa [Replica.append, holding] using ended
  exact awaited holding takes both.1 both.2

/-- A voter that takes an append has what it owes: what it had is still there, for the leader
has it, and at the end of a hold the append itself reaches it. -/
theorem Sound.keeps_append (sound : Sound members world)
    {whole front : List Entry} (takes : (world.voters voter).takes request)
    (awaited : Awaited world (.deliverAppend voter request cleared))
    (later : (world.voters voter).ballot ≤ request.ballot)
    (ended : ((world.voters voter).append request cleared).holding = false)
    (led : world.canon request.ballot = some whole) {whole' : List Entry}
    (owes : Owed world voter ballot count) (is : world.canon ballot = some whole') (within : front <+: whole')
    (short : front.length ≤ count) (carried : ∀ c, ballot < c → c ≤ request.ballot → Carried world front c) :
    front <+: whole ∧ (front <+: (world.voters voter).log ∨ front.length ≤ request.prev + request.entries.length) := by
  have own := sound.own voter
  -- The leader has the front, for its ballot is the front's or a later one.
  have ofLeader : ballot ≤ request.ballot → front <+: whole := by
    intro reached
    rcases reached.lt_or_eq with after | rfl
    · exact sound.shared.carries led (carried _ after (le_refl _))
    · rw [led] at is
      rw [Option.some.inj is]
      exact within
  cases holding : (world.voters voter).holding with
  | false =>
    have bound : ballot ≤ (world.voters voter).ballot := (own.bound _ _ owes).trans (own.top_eq holding).ge
    refine ⟨ofLeader (bound.trans later), .inl (own.kept holding ballot count whole' front owes is within short
      fun c after seen => carried c after ?_)⟩
    exact (seen.elim le_of_lt fun same => le_of_eq same.1).trans later
  | true =>
    obtain ⟨top, reaches⟩ := awaited.released takes holding ended
    refine ⟨ofLeader ((own.bound _ _ owes).trans top), .inr ?_⟩
    -- Of a voter that lost its disk only commits are owed, and the append reaches them.
    rcases owes with ⟨present, -⟩ | ⟨commit, inside, -, counted, rfl⟩
    · exact absurd (own.held holding) present
    · exact short.trans (reaches commit inside counted)

theorem Sound.deliverAppend (sound : Sound members world)
    (inside : request ∈ world.appends) (later : (world.voters voter).ballot ≤ request.ballot)
    (takes : (world.voters voter).takes request) (awaited : Awaited world (.deliverAppend voter request cleared)) :
    Sound members { world.set voter ((world.voters voter).append request cleared) with
      acks := world.acks ++ [⟨voter, request.ballot, request.prev + request.entries.length⟩] } := by
  have own := sound.own voter
  obtain ⟨whole, base, led, length, within, behind⟩ := sound.shared.appends request inside
  obtain ⟨matched, below, stays⟩ :=
    stored_of_takes own later (sound.shared.leaders _ whole led) length within behind takes
  set world' : World := { world.set voter ((world.voters voter).append request cleared) with
    acks := world.acks ++ [⟨voter, request.ballot, request.prev + request.entries.length⟩] }
  have mine : world'.voters voter = (world.voters voter).append request cleared := Function.update_self ..
  have owed : ∀ other ballot count, Owed world' other ballot count → Owed world other ballot count ∨
      world.lost ≠ some other ∧ other = voter ∧ ballot = request.ballot ∧
        count = request.prev + request.entries.length := by
    intro other ballot count owes
    refine (owed_ack world world' rfl rfl rfl owes).imp_right fun new => ?_
    injection new.2 with is made reached
    exact ⟨new.1, is.symm, made.symm, reached.symm⟩
  have extends_ : Extends world world' := by
    refine ⟨fun _ whole is => ⟨whole, is, prefix_refl _⟩, fun _ => id, fun _ => id,
      tops_update (le_max_left _ _), fun other ballot count owes => ?_⟩
    refine (owed other ballot count owes).imp (fun owes => ⟨count, le_refl _, owes⟩) ?_
    rintro ⟨present, rfl, rfl, -⟩
    exact (own.top_eq (own.free_of_present present)).ge.trans later
  have shared : Shared members world' := by
    refine sound.shared.extend extends_ (fun _ _ => .inl) (fun _ => .inl)
      (fun _ inside _ _ new => absurd inside new) (fun _ => .inl) (fun _ => .inl) ?_ (fun _ => .inl)
    intro ack there
    refine (mem_append.mp there).imp_right fun new => ?_
    obtain rfl := mem_singleton.mp new
    refine ⟨whole, led, ?_⟩
    have long := within.length_le
    rwa [length_append, length] at long
  refine sound.change extends_ shared (fun other is => Function.update_of_ne is _ _) ?_ (fun _ _ => id)
    (fun _ _ => rfl) ?_
  · intro other is ballot count owes
    exact ⟨count, le_refl _, (owed other ballot count owes).resolve_right fun new => is new.2.1⟩
  rw [mine]
  refine ⟨matched, below, le_max_right _ _, fun ended => ?_, fun holding => ?_, fun is => ?_, fun is => ?_, ?_, ?_⟩
  · show request.ballot = max (world.voters voter).top request.ballot
    cases holding : (world.voters voter).holding with
    | false => rw [← own.top_eq holding, max_eq_right later]
    | true => rw [max_eq_right (awaited.released takes holding ended).1]
  · exact own.held (Bool.and_eq_true_iff.mp holding).1
  · cases is
  · cases is
  · intro ballot count owes
    rcases owed voter ballot count owes with owes | ⟨-, -, rfl, -⟩
    · exact (own.bound ballot count owes).trans (le_max_left _ _)
    · exact le_max_right _ _
  · intro ended ballot count whole' front owes is within' short carried
    rcases owed voter ballot count owes with owes | ⟨-, -, rfl, rfl⟩
    · have kept := sound.keeps_append takes awaited later ended led owes is within' short fun c after before =>
        (carried c after (before.lt_or_eq.imp_right fun same => ⟨same, rfl⟩)).before extends_
      exact stays front kept.1 kept.2
    · rw [show world.canon request.ballot = some whole' from is] at led
      cases led
      exact stays front within' (.inr short)

theorem Sound.refuseAppend (sound : Sound members world) (later : (world.voters voter).ballot ≤ ballot) :
    Sound members (world.set voter ((world.voters voter).adopt ballot true)) := by
  refine sound.set (le_max_left _ _) ((sound.own voter).adopt ballot true later fun c seen => ?_)
  have low : c ≤ ballot := (seen.elim le_of_lt fun same => le_of_eq same.1).trans later
  exact low.lt_or_eq.imp_right fun same => ⟨same, rfl⟩

theorem last_of_ballotAt {log : List Entry} (last : ballotAt log count = some ballot) :
    ∃ entry, (log.take count).getLast? = some entry ∧ ballotOf entry = ballot := by
  cases count with
  | zero => cases last
  | succ count =>
    obtain ⟨entry, found, made⟩ := Option.map_eq_some_iff.mp last
    have low := (List.getElem?_eq_some_iff.mp found).1
    refine ⟨entry, ?_, made⟩
    rw [getLast?_eq_getElem?, length_take, Nat.min_eq_left low]
    show (log.take (count + 1))[count]? = some entry
    rw [getElem?_take_of_lt (Nat.lt_succ_self _)]
    exact found

theorem Sound.commit (sound : Sound members world) {quorum : Finset Nat}
    (leader : (world.voters voter).role = .leader) (majority : Majority members quorum)
    (last : ballotAt (world.voters voter).log count = some (world.voters voter).ballot)
    (counted : ∀ other ∈ quorum, ∃ ack ∈ world.acks, ack.voter = other ∧
      ack.ballot = (world.voters voter).ballot ∧ count ≤ ack.count) :
    Sound members { world.set voter
        { world.voters voter with commit := max (world.voters voter).commit count } with
      committed := if world.lost = none then
          world.committed ++ [⟨(world.voters voter).ballot, (world.voters voter).log.take count, quorum⟩]
        else world.committed } := by
  have own := sound.own voter
  have led := (own.leader leader).2.2.2
  set world' : World := { world.set voter
      { world.voters voter with commit := max (world.voters voter).commit count } with
    committed := if world.lost = none then
        world.committed ++ [⟨(world.voters voter).ballot, (world.voters voter).log.take count, quorum⟩]
      else world.committed }
  have mine : world'.voters voter =
      { world.voters voter with commit := max (world.voters voter).commit count } := Function.update_self ..
  have recorded : ∀ commit ∈ world'.committed, commit ∈ world.committed ∨ world.lost = none ∧
      commit = ⟨(world.voters voter).ballot, (world.voters voter).log.take count, quorum⟩ := by
    intro commit inside
    by_cases present : world.lost = none
    · rw [show world'.committed = _ from if_pos present] at inside
      exact (mem_append.mp inside).imp_right fun new => ⟨present, mem_singleton.mp new⟩
    · rw [show world'.committed = _ from if_neg present] at inside
      exact .inl inside
  have owed : ∀ other ballot n, Owed world' other ballot n → ∃ more, n ≤ more ∧ Owed world other ballot more := by
    rintro other ballot n (acked | ⟨commit, inside, rfl, among, rfl⟩)
    · exact ⟨n, le_refl _, .inl acked⟩
    · rcases recorded commit inside with old | ⟨present, rfl⟩
      · exact ⟨_, le_refl _, .inr ⟨commit, old, rfl, among, rfl⟩⟩
      · obtain ⟨ack, acked, rfl, same, enough⟩ := counted other among
        refine ⟨ack.count, (length_take_le _ _).trans enough, .inl ⟨by rw [present]; simp, ?_⟩⟩
        show (⟨ack.voter, (world.voters voter).ballot, ack.count⟩ : Ack) ∈ world.acks
        rw [← same]
        exact acked
  have extends_ : Extends world world' :=
    ⟨fun _ whole is => ⟨whole, is, prefix_refl _⟩, fun _ => id, fun _ => id, tops_update (le_refl _),
      fun other ballot n owes => .inl (owed other ballot n owes)⟩
  have shared : Shared members world' := by
    refine sound.shared.extend extends_ (fun _ _ => .inl) (fun _ => .inl)
      (fun _ inside _ _ new => absurd inside new) (fun _ => .inl) (fun _ => .inl) (fun _ => .inl) ?_
    intro commit inside
    refine (recorded commit inside).imp_right ?_
    rintro ⟨-, rfl⟩
    exact ⟨majority, ⟨_, led, take_prefix _ _⟩, last_of_ballotAt last⟩
  refine sound.change extends_ shared (fun other is => Function.update_of_ne is _ _)
    (fun other _ => owed other) (fun _ _ => id) (fun _ _ => rfl) ?_
  rw [mine]
  have framed := own.frame sound.shared extends_ (owed voter) id fun _ => rfl
  exact ⟨framed.matched, framed.below, framed.top_le, framed.top_eq, framed.held, framed.candidate, framed.leader,
    framed.bound, framed.kept⟩

theorem zero_le_ballot (ballot : Ballot) : (toLex (0, 0) : Ballot) ≤ ballot := by
  rw [Prod.Lex.le_iff]
  rcases Nat.eq_zero_or_pos (ofLex ballot).1 with zero | positive
  · exact .inr ⟨zero.symm, Nat.zero_le _⟩
  · exact .inl positive

theorem Sound.lose (sound : Sound members world) (present : world.lost = none) :
    Sound members { world.set voter { Replica.new with holding := true, top := (world.voters voter).top } with
      lost := some voter } := by
  have own := sound.own voter
  set world' : World :=
    { world.set voter { Replica.new with holding := true, top := (world.voters voter).top } with
      lost := some voter }
  have mine : world'.voters voter = { Replica.new with holding := true, top := (world.voters voter).top } :=
    Function.update_self ..
  have owed : ∀ other ballot count, Owed world' other ballot count → Owed world other ballot count := by
    rintro other ballot count (⟨-, acked⟩ | commit)
    · exact .inl ⟨by rw [present]; simp, acked⟩
    · exact .inr commit
  have extends_ : Extends world world' :=
    ⟨fun _ whole is => ⟨whole, is, prefix_refl _⟩, fun _ => id, fun _ => id, tops_update (le_refl _),
      fun other ballot count owes => .inl ⟨count, le_refl _, owed other ballot count owes⟩⟩
  have shared : Shared members world' :=
    sound.shared.extend extends_ (fun _ _ => .inl) (fun _ => .inl) (fun _ inside _ _ new => absurd inside new)
      (fun _ => .inl) (fun _ => .inl) (fun _ => .inl) (fun _ => .inl)
  refine sound.change extends_ shared (fun other is => Function.update_of_ne is _ _)
    (fun other _ ballot count owes => ⟨count, le_refl _, owed other ballot count owes⟩) ?_ (fun _ _ => rfl) ?_
  · intro other _ is
    rw [present] at is
    cases is
  · rw [mine]
    refine ⟨matches_nil, fun _ inside => (by cases inside), zero_le_ballot _, fun free => (by cases free),
      fun _ => rfl, fun is => (by cases is), fun is => (by cases is), ?_, fun free => (by cases free)⟩
    exact fun ballot count owes => own.bound ballot count (owed voter ballot count owes)

theorem sound_new : Sound members World.new where
  shared :=
    { leaders := fun _ _ is => by cases is
      requests := fun _ inside => by cases inside
      one := fun _ inside => by cases inside
      grants := fun _ inside => by cases inside
      appends := fun _ inside => by cases inside
      acks := fun _ inside => by cases inside
      committed := fun _ inside => by cases inside }
  own voter :=
    { matched := matches_nil
      below := fun _ inside => by cases inside
      top_le := le_refl _
      top_eq := fun _ => rfl
      held := fun is => by cases is
      candidate := fun is => by cases is
      leader := fun is => by cases is
      bound := fun _ _ owes => by rcases owes with ⟨-, inside⟩ | ⟨_, inside, -⟩ <;> cases inside
      kept := fun _ _ _ _ _ owes => by rcases owes with ⟨-, inside⟩ | ⟨_, inside, -⟩ <;> cases inside }

theorem Sound.step (sound : Sound members world) {event : Event} (awaited : Awaited world event)
    (moved : step members world event = some world') : Sound members world' := by
  cases event with
  | campaign voter =>
    simp only [Election.step] at moved
    split at moved
    · cases moved
      exact sound.campaign awaited
    · cases moved
  | observe voter ballot =>
    simp only [Election.step] at moved
    split at moved
    · rename_i allowed
      cases moved
      exact sound.observe allowed.1
    · cases moved
  | deliverVote voter request =>
    simp only [Election.step] at moved
    split at moved
    · rename_i allowed
      cases moved
      exact sound.deliverVote allowed.1 allowed.2.2.1 allowed.2.2.2
    · cases moved
  | lead voter quorum =>
    simp only [Election.step] at moved
    split at moved
    · rename_i allowed
      cases moved
      exact sound.lead allowed.1 allowed.2.1 allowed.2.2
    · cases moved
  | propose voter payload =>
    simp only [Election.step] at moved
    split at moved
    · rename_i leader
      cases moved
      exact sound.propose payload leader
    · cases moved
  | send voter prev length =>
    simp only [Election.step] at moved
    split at moved
    · rename_i allowed
      cases moved
      exact sound.send allowed.1 allowed.2
    · cases moved
  | deliverAppend voter request cleared =>
    simp only [Election.step] at moved
    split at moved
    · rename_i allowed
      split at moved
      · cases moved
        exact sound.deliverAppend allowed.1 allowed.2.2 ‹_› awaited
      · cases moved
        exact sound.refuseAppend allowed.2.2
    · cases moved
  | commit voter count quorum =>
    simp only [Election.step] at moved
    split at moved
    · rename_i allowed
      cases moved
      exact sound.commit allowed.1 allowed.2.1 allowed.2.2.1 allowed.2.2.2
    · cases moved
  | restart voter =>
    cases moved
    exact sound.restart
  | lose voter =>
    simp only [Election.step] at moved
    split at moved
    · rename_i allowed
      cases moved
      exact sound.lose allowed.1
    · cases moved

theorem Sound.protected (sound : Sound members world) : Protected world := by
  intro commit inside voter leader later
  have led := ((sound.own voter).leader leader).2.2.2
  rcases later.lt_or_eq with after | same
  · exact sound.shared.carries led (sound.shared.commit_carried inside _ after)
  · obtain ⟨whole, is, within⟩ := (sound.shared.committed commit inside).made
    rw [same, led] at is
    rw [Option.some.inj is]
    exact within

end

/-- In every run in which a held voter does not campaign and its hold is ended only by a
leader that is not superseded, with an append that reaches what was committed with it, no
later leader lacks an entry that was committed before the loss. -/
theorem hold_protects_committed {members : Finset Nat} {world : World}
    (run : Reach (step members) Awaited .new world) : Protected world :=
  (run.invariant (Sound members) sound_new fun _ _ _ sound awaited moved => sound.step awaited moved).protected

def firstEntries : List Entry := [⟨⟨1, 1, 0⟩, .blank⟩, ⟨⟨1, 1, 1⟩, .normal [7]⟩]

def lastEntry : Entry := ⟨⟨2, 2, 2⟩, .normal [8]⟩

/-- Node 1 leads and commits two entries with node 2, node 2 leads next and commits a third
with node 3, and node 3 loses its disk. Node 1 has heard of none of it. -/
def committedAndLost : List Event :=
  [.campaign 1, .deliverVote 2 ⟨toLex (1, 1), []⟩, .lead 1 {1, 2}, .propose 1 .blank, .propose 1 (.normal [7]),
    .send 1 0 2, .deliverAppend 2 ⟨toLex (1, 1), 0, none, firstEntries, 0⟩ true, .commit 1 2 {1, 2},
    .campaign 2, .deliverVote 3 ⟨toLex (2, 2), firstEntries⟩, .lead 2 {2, 3}, .propose 2 (.normal [8]),
    .send 2 0 3, .deliverAppend 3 ⟨toLex (2, 2), 0, none, firstEntries ++ [lastEntry], 0⟩ true,
    .commit 2 3 {2, 3}, .lose 3]

/-- The newest leader brings node 3 back, which then leads with the vote of node 1. -/
theorem hold_protects_committed_third : ∃ world : World, world.lost = some 3 ∧ world.committed.length = 2 ∧
    (world.voters 3).role = .leader ∧ Protected world := by
  have ran : (exec (guarded (step {1, 2, 3}) Awaited) .new (committedAndLost ++
      [.send 2 0 3, .deliverAppend 3 ⟨toLex (2, 2), 0, none, firstEntries ++ [lastEntry], 3⟩ true, .campaign 3,
        .deliverVote 1 ⟨toLex (3, 3), firstEntries ++ [lastEntry]⟩, .lead 3 {1, 3}])).any (fun world =>
          world.lost = some 3 ∧ world.committed.length = 2 ∧ (world.voters 3).role = .leader) = true := by
    decide +kernel
  obtain ⟨world, run, found⟩ := Reach.of_exec_any ran
  obtain ⟨lost, committed, leads⟩ := of_decide_eq_true found
  exact ⟨world, lost, committed, leads, hold_protects_committed run⟩

/-- The superseded leader's append ends the hold, and node 3 leads without the third entry. -/
theorem superseded_leader_ends_hold : ∃ world, Reach (step {1, 2, 3}) anyStep .new world ∧ ¬ Protected world := by
  have ran : (exec (guarded (step {1, 2, 3}) anyStep) .new (committedAndLost ++
      [.send 1 0 2, .deliverAppend 3 ⟨toLex (1, 1), 0, none, firstEntries, 2⟩ true, .campaign 3,
        .deliverVote 1 ⟨toLex (2, 3), firstEntries⟩, .lead 3 {1, 3}])).any (fun world =>
          world.committed.any fun commit => (world.voters 3).role = .leader ∧
            commit.ballot ≤ (world.voters 3).ballot ∧ ¬ commit.entries <+: (world.voters 3).log) = true := by
    decide +kernel
  obtain ⟨world, run, found⟩ := Reach.of_exec_any ran
  obtain ⟨commit, inside, missing⟩ := List.any_eq_true.mp found
  obtain ⟨leads, later, lacks⟩ := of_decide_eq_true missing
  exact ⟨world, run, fun safe => lacks (safe commit inside 3 leads later)⟩

/-- What makes the logs of all voters one: whatever was committed are fronts of one log, and two logs with an entry of
one ballot at one place are the same up to it. -/
structure OneLog (world : World) : Prop where
  committed : ∀ first ∈ world.committed, ∀ second ∈ world.committed,
    first.entries <+: second.entries ∨ second.entries <+: first.entries
  matched : ∀ voter other (i : Nat) mine theirs, (world.voters voter).log[i]? = some mine →
    (world.voters other).log[i]? = some theirs → ballotOf mine = ballotOf theirs →
      (world.voters voter).log.take (i + 1) = (world.voters other).log.take (i + 1)

/-- In every such run the voters keep one log, the voter that came back without its disk too. -/
theorem voters_keep_one_log {members : Finset Nat} {world : World}
    (run : Reach (step members) Awaited .new world) : OneLog world := by
  have sound := run.invariant (Sound members) sound_new fun _ _ _ sound awaited moved => sound.step awaited moved
  refine ⟨fun first inside second inside' => ?_, fun voter other i mine theirs found found' same =>
    (sound.own voter).matched.agree (sound.own other).matched found found' same⟩
  wlog order : first.ballot ≤ second.ballot generalizing first second
  · exact (this second inside' first inside (le_of_not_ge order)).symm
  obtain ⟨whole, is, within⟩ := (sound.shared.committed second inside').made
  refine List.prefix_or_prefix_of_prefix ?_ within
  rcases order.lt_or_eq with later | same
  · exact sound.shared.carries is (sound.shared.commit_carried inside _ later)
  · obtain ⟨whole', is', within'⟩ := (sound.shared.committed first inside).made
    rw [same, is] at is'
    exact Option.some.inj is' ▸ within'

theorem voters_keep_one_log_third : ∃ world : World, world.lost = some 3 ∧ world.committed.length = 2 ∧
    OneLog world := by
  have ran : (exec (guarded (step {1, 2, 3}) Awaited) .new committedAndLost).any (fun world =>
      world.lost = some 3 ∧ world.committed.length = 2) = true := by
    decide +kernel
  obtain ⟨world, run, found⟩ := Reach.of_exec_any ran
  obtain ⟨lost, committed⟩ := of_decide_eq_true found
  exact ⟨world, lost, committed, voters_keep_one_log run⟩

end TallyOwl.Election
