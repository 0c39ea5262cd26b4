import TallyOwl.Collector.Forwarder

/-! Where an accepted batch is, and how often the head commits it, over any order of steps. -/
namespace TallyOwl.Delivery
open Lib Wire List

variable {π β : Type}

def keyOf (accepted : Batch × Bytes) : Key := (accepted.2, accepted.1.batchId)

def Payload (f : Forwarder π β) (accepted : Batch × Bytes) (payload : π) : Prop :=
  ∃ d, payload = f.codec.encodeDeliveryTask d ∧ Carries f.codec accepted.1 accepted.2 d

def Committed (commits : List (Key × Int)) (key : Key) : Prop := ∃ moment, (key, moment) ∈ commits

/-- Every accepted batch has its task, which carries it: in the delivery queue, in quarantine, or
completed once the head had committed it. -/
def Accounted (f : Forwarder π β) (w : World π β) : Prop :=
  ∀ (u : ℕ) a, w.accepted[u]? = some a → ∃ task, w.tasks[u]? = some task ∧ Payload f a task.payload ∧
    (task.state = .queued ∨ task.state = .sending ∨ task.state = .backoff ∨ task.state = .quarantined ∨
      (task.state = .completed ∧ Committed w.commits (keyOf a)))

def Once (w : World π β) : Prop := (w.commits.map Prod.fst).Nodup

/-- A request reaches the head while it must still remember what it committed of the batch. -/
def InTime (f : Forwarder π β) (w : World π β) : Event → Prop
  | .arrives n .takes => ∀ fl ∈ w.flights[n]?, ∀ c ∈ w.commits, c.1 = fl.request.key →
      w.now ≤ c.2 + f.maxDeliveryAgeMs
  | _ => True

def Fits (f : Forwarder π β) (accepted : List (Batch × Bytes)) (flights : List Flight)
    (commits : List (Key × Int)) : Stage π β → Prop
  | .idle | .quarantines _ _ => True
  | .holds claim _ => ∃ a, accepted[claim.uuid]? = some a ∧ Payload f a claim.payload
  | .waits claim _ delivery n => ∃ a, accepted[claim.uuid]? = some a ∧ Carries f.codec a.1 a.2 delivery ∧
      ∃ fl, flights[n]? = some fl ∧ fl.request.key = keyOf a
  | .completes claim => ∃ a, accepted[claim.uuid]? = some a ∧ Committed commits (keyOf a)
  | .parks claim _ payload => ∃ a, accepted[claim.uuid]? = some a ∧ ∀ p, payload = some p → Payload f a p

structure Kept (f : Forwarder π β) (w : World π β) : Prop where
  lengths : w.accepted.length = w.tasks.length
  tasks : ∀ (u : ℕ) task a, w.tasks[u]? = some task → w.accepted[u]? = some a →
    Payload f a task.payload ∧ (task.state = .completed → Committed w.commits (keyOf a))
  workers : ∀ (i : ℕ) worker, w.workers[i]? = some worker →
    Fits f w.accepted w.flights w.commits worker.stage
  flights : ∀ fl ∈ w.flights, ∀ receipt, fl.answer = some (.ok receipt) → Committed w.commits fl.request.key
  memory : ∀ entry ∈ w.memory, entry ∈ w.commits

section
variable {f : Forwarder π β} {w t : World π β} {i : ℕ} {worker : Worker π β}

theorem Fits.mono {accepted accepted' : List (Batch × Bytes)} {flights flights' : List Flight}
    {commits commits' : List (Key × Int)} {stage : Stage π β} (fits : Fits f accepted flights commits stage)
    (more : ∀ (u : ℕ) a, accepted[u]? = some a → accepted'[u]? = some a)
    (keys : ∀ (n : ℕ) fl, flights[n]? = some fl → ∃ fl', flights'[n]? = some fl' ∧ fl'.request = fl.request)
    (known : ∀ key, Committed commits key → Committed commits' key) : Fits f accepted' flights' commits' stage := by
  cases stage with
  | idle => trivial
  | quarantines => trivial
  | holds claim probing =>
    obtain ⟨a, there, payload⟩ := fits
    exact ⟨a, more _ _ there, payload⟩
  | waits claim probing delivery n =>
    obtain ⟨a, there, carries, fl, flying, key⟩ := fits
    obtain ⟨fl', still, request⟩ := keys n fl flying
    exact ⟨a, more _ _ there, carries, fl', still, request ▸ key⟩
  | completes claim =>
    obtain ⟨a, there, committed⟩ := fits
    exact ⟨a, more _ _ there, known _ committed⟩
  | parks claim delay payload =>
    obtain ⟨a, there, payloads⟩ := fits
    exact ⟨a, more _ _ there, payloads⟩

theorem Kept.put (kept : Kept f w) {next : Worker π β} (fits : Fits f w.accepted w.flights w.commits next.stage) :
    Kept f { w with workers := w.workers.set i next } := by
  refine ⟨kept.lengths, kept.tasks, fun j other found => ?_, kept.flights, kept.memory⟩
  rcases getElem?_set_cases found with ⟨-, rfl⟩ | ⟨-, old⟩
  · exact fits
  · exact kept.workers j other old

theorem Kept.ends (kept : Kept f w) (found : Step) (spread : ℕ) : Kept f (w.ends i worker found spread) :=
  kept.put (by cases found <;> trivial)

theorem Kept.retask (kept : Kept f w) {tasks : List (Task π)} (length : tasks.length = w.tasks.length)
    (each : ∀ (u : ℕ) task, tasks[u]? = some task → ∃ old, w.tasks[u]? = some old ∧
      ∀ a, w.accepted[u]? = some a → Payload f a old.payload →
        (old.state = .completed → Committed w.commits (keyOf a)) →
        Payload f a task.payload ∧ (task.state = .completed → Committed w.commits (keyOf a))) :
    Kept f { w with tasks } := by
  refine ⟨kept.lengths.trans length.symm, fun u task a found there => ?_, kept.workers, kept.flights, kept.memory⟩
  obtain ⟨old, was, follows⟩ := each u task found
  obtain ⟨payload, completed⟩ := kept.tasks u old a was there
  exact follows a there payload completed

theorem change_tasks {tasks : List (Task π)} {claim : ClaimedTask π} {outcome : Outcome} {g : Task π → Task π} :
    (change tasks claim outcome g).1.length = tasks.length ∧
      ∀ (u : ℕ) task, (change tasks claim outcome g).1[u]? = some task → ∃ old, tasks[u]? = some old ∧
        (task = old ∨ (u = claim.uuid ∧ task = { g old with revision := old.revision + 1 })) := by
  unfold change
  cases there : tasks[claim.uuid]? with
  | none => exact ⟨rfl, fun u task found => ⟨task, found, .inl rfl⟩⟩
  | some held =>
    simp only
    split
    · refine ⟨length_set, fun u task found => ?_⟩
      rcases getElem?_set_cases found with ⟨rfl, rfl⟩ | ⟨-, old⟩
      · exact ⟨held, there, .inr ⟨rfl, rfl⟩⟩
      · exact ⟨task, old, .inl rfl⟩
    · exact ⟨rfl, fun u task found => ⟨task, found, .inl rfl⟩⟩

theorem Kept.changes (kept : Kept f w) {claim : ClaimedTask π} {outcome : Outcome} {g : Task π → Task π}
    {done failed : Step} {spread : ℕ} (keeps : ∀ a task, w.accepted[claim.uuid]? = some a →
      Payload f a task.payload → Payload f a (g task).payload ∧
        ((g task).state = .completed → Committed w.commits (keyOf a))) :
    Kept f (w.changes i worker claim outcome g done failed spread) := by
  obtain ⟨length, each⟩ := @change_tasks π w.tasks claim outcome g
  unfold World.changes
  refine Kept.ends (w := { w with tasks := (change w.tasks claim outcome g).1 }) (kept.retask length ?_) _ spread
  intro u task found
  obtain ⟨old, was, change⟩ := each u task found
  refine ⟨old, was, fun a there payload completed => ?_⟩
  rcases change with rfl | ⟨rfl, rfl⟩
  · exact ⟨payload, completed⟩
  · exact keeps a old there payload

theorem fits_heard {claim : ClaimedTask π} {probing : Bool} {delivery : DeliveryTask β} {now : Int}
    {spread n : ℕ} {answer : Answer} (fits : Fits f w.accepted w.flights w.commits (.waits claim probing delivery n))
    (committed : ∀ receipt, answer = .ok receipt → ∀ fl, w.flights[n]? = some fl → Committed w.commits fl.request.key) :
    Fits f w.accepted w.flights w.commits (heard f claim probing delivery now spread answer) := by
  obtain ⟨a, there, carries, fl, flying, key⟩ := fits
  cases answer with
  | ok receipt => exact ⟨a, there, key ▸ committed receipt rfl fl flying⟩
  | error e =>
    simp only [heard]
    split
    · split
      · trivial
      · refine ⟨a, there, fun p made => ?_⟩
        split at made <;> cases made
        exact ⟨_, rfl, carries.noted _ _ _⟩
    · trivial

theorem Kept.sends (kept : Kept f w) (lawful : f.codec.Lawful) {claim : ClaimedTask π} {probing : Bool}
    (fits : Fits f w.accepted w.flights w.commits (.holds claim probing)) :
    Kept f ({ w with flights := w.flights ++ (sends f w claim probing).2 }.works i worker
      (sends f w claim probing).1) := by
  obtain ⟨a, there, d, written, carries⟩ := fits
  unfold Delivery.sends
  cases read : decode f.codec claim.payload with
  | error e =>
    simp only [append_nil]
    exact kept.put trivial
  | ok delivery =>
    simp only
    cases batch : opened f.codec delivery f.maxPayloadBytes with
    | error e =>
      simp only [append_nil]
      exact kept.put trivial
    | ok batch =>
      obtain rfl := decode_encode lawful written read
      obtain rfl := opened_of_carries lawful carries batch
      simp only
      have longer : Kept f { w with flights := w.flights ++ [⟨⟨a.1, delivery.sourceId,
          some delivery.attempts, some protocolVersion⟩, none⟩] } := by
        refine ⟨kept.lengths, kept.tasks, fun j other found => ?_, fun fl inside receipt answer => ?_, kept.memory⟩
        · refine (kept.workers j other found).mono (fun _ _ found => found) (fun n fl flying => ?_)
            fun _ known => known
          exact ⟨fl, (getElem?_append_left (List.getElem?_eq_some_iff.mp flying).1).trans flying, rfl⟩
        · rcases mem_append.mp inside with old | new
          · exact kept.flights fl old receipt answer
          · obtain rfl := mem_singleton.mp new
            cases answer
      refine longer.put ⟨a, there, carries, _, getElem?_concat_length, ?_⟩
      simp [CommitBatchRequest.key, keyOf, carries.source]

theorem Kept.acts {act : Act} (kept : Kept f w) (lawful : f.codec.Lawful)
    (there : w.workers[i]? = some worker) (next : w.acts f i worker act = some t) : Kept f t := by
  have fits := kept.workers i worker there
  cases act with
  | restarts =>
    cases next
    exact kept.put trivial
  | claims uuid told spread =>
    simp only [World.acts] at next
    split at next <;> rename_i stage found
    · split at next <;> rename_i ready <;> cases next
      rename_i task
      have claims : Kept f { w with tasks := w.tasks.set uuid (claimed task w.now) } := by
        refine kept.retask length_set fun u after became => ?_
        rcases getElem?_set_cases became with ⟨rfl, rfl⟩ | ⟨-, old⟩
        · exact ⟨task, found, fun a _ payload _ => ⟨payload, fun completed => (by cases completed)⟩⟩
        · exact ⟨after, old, fun a _ payload completed => ⟨payload, completed⟩⟩
      have inside : uuid < w.accepted.length := kept.lengths ▸ (List.getElem?_eq_some_iff.mp found).1
      have known : w.accepted[uuid]? = some w.accepted[uuid] := getElem?_eq_getElem inside
      split
      · exact claims.put ⟨_, known, (kept.tasks uuid task _ found known).1⟩
      · exact claims.ends _ spread
    · cases next
  | claimFails spread =>
    simp only [World.acts] at next
    split at next
    · split at next <;> cases next
      exact kept.ends _ spread
    · cases next
  | sends =>
    simp only [World.acts] at next
    split at next <;> rename_i stage <;> cases next
    rw [stage] at fits
    exact kept.sends lawful fits
  | hears spread =>
    simp only [World.acts] at next
    split at next <;> rename_i stage
    · rename_i claim probing delivery n
      rw [stage] at fits
      obtain ⟨answer, given, rfl⟩ := Option.map_eq_some_iff.mp next
      obtain ⟨fl, flying, answered⟩ := Option.bind_eq_some_iff.mp given
      refine kept.put (fits_heard fits fun receipt same fl' flying' => ?_)
      obtain rfl := Option.some.inj (flying.symm.trans flying')
      exact kept.flights fl (mem_of_getElem? flying) receipt (same ▸ answered)
    · cases next
  | loses e spread =>
    simp only [World.acts] at next
    split at next <;> rename_i stage <;> cases next
    rename_i claim probing delivery n
    rw [stage] at fits
    have failed : Fits f w.accepted w.flights w.commits
        (heard f claim probing delivery w.now spread (.error e)) :=
      fits_heard fits fun receipt same => (by cases same)
    exact kept.put failed
  | completes outcome spread =>
    simp only [World.acts] at next
    split at next <;> rename_i stage <;> cases next
    rw [stage] at fits
    obtain ⟨a, known, committed⟩ := fits
    refine kept.changes fun a' task there payload => ⟨payload, fun _ => ?_⟩
    obtain rfl := Option.some.inj (known.symm.trans there)
    exact committed
  | parks outcome spread =>
    simp only [World.acts] at next
    split at next <;> rename_i stage <;> cases next
    rename_i delay new
    rw [stage] at fits
    obtain ⟨a, known, payloads⟩ := fits
    refine kept.changes fun a' task there payload => ⟨?_, fun completed => (by cases completed)⟩
    obtain rfl := Option.some.inj (known.symm.trans there)
    cases new with
    | none => exact payload
    | some p => exact payloads p rfl
  | quarantines outcome spread =>
    simp only [World.acts] at next
    split at next <;> rename_i stage <;> cases next
    exact kept.changes fun a task _ payload => ⟨payload, fun completed => (by cases completed)⟩

theorem Kept.answers (kept : Kept f w) {n : ℕ} {request : CommitBatchRequest} {answer : Answer}
    {memory commits : List (Key × Int)} (flying : w.flights[n]? = some ⟨request, none⟩)
    (more : ∀ c ∈ w.commits, c ∈ commits) (held : ∀ entry ∈ memory, entry ∈ commits)
    (committed : ∀ receipt, answer = .ok receipt → Committed commits request.key) :
    Kept f { w with flights := w.flights.set n ⟨request, some answer⟩, memory, commits } := by
  have known : ∀ key, Committed w.commits key → Committed commits key := fun key ⟨moment, inside⟩ =>
    ⟨moment, more _ inside⟩
  refine ⟨kept.lengths, fun u task a found there => ?_, fun j other found => ?_,
    fun fl inside receipt answered => ?_, held⟩
  · obtain ⟨payload, completed⟩ := kept.tasks u task a found there
    exact ⟨payload, fun finished => known _ (completed finished)⟩
  · refine (kept.workers j other found).mono (fun _ _ found => found) (fun m fl flying' => ?_) known
    by_cases same : m = n
    · subst same
      obtain rfl := Option.some.inj (flying'.symm.trans flying)
      exact ⟨_, getElem?_set_self (List.getElem?_eq_some_iff.mp flying).1, rfl⟩
    · exact ⟨fl, (getElem?_set_ne fun h => same h.symm).trans flying', rfl⟩
  · rcases mem_or_eq_of_mem_set inside with old | rfl
    · exact known _ (kept.flights fl old receipt answered)
    · exact committed receipt (Option.some.inj answered)

theorem Kept.step {e : Event} (kept : Kept f w) (lawful : f.codec.Lawful) (next : w.step f e = some t) : Kept f t := by
  cases e with
  | passes ms =>
    cases next
    exact ⟨kept.lengths, kept.tasks, kept.workers, kept.flights, kept.memory⟩
  | accepts batch sourceId =>
    cases next
    refine ⟨by simp [kept.lengths], fun u task a found there => ?_, fun i worker found => ?_, kept.flights,
      kept.memory⟩
    · rcases getElem?_push_cases found with ⟨last, rfl⟩ | ⟨before, old⟩ <;>
        rcases getElem?_push_cases there with ⟨last', rfl⟩ | ⟨before', old'⟩
      · exact ⟨⟨_, rfl, carries_sealed w.now⟩, fun completed => (by cases completed)⟩
      · exact absurd (kept.lengths ▸ before') (last ▸ lt_irrefl _)
      · exact absurd before (by rw [last', kept.lengths]; exact lt_irrefl _)
      · exact kept.tasks u task a old old'
    · refine (kept.workers i worker found).mono (fun u a there => ?_) (fun n fl flying => ⟨fl, flying, rfl⟩)
        fun _ known => known
      exact (getElem?_append_left (List.getElem?_eq_some_iff.mp there).1).trans there
  | starts =>
    cases next
    refine ⟨kept.lengths, kept.tasks, fun i worker found => ?_, kept.flights, kept.memory⟩
    rcases getElem?_push_cases found with ⟨-, rfl⟩ | ⟨-, old⟩
    · trivial
    · exact kept.workers i worker old
  | acts i act =>
    obtain ⟨worker, there, acted⟩ := Option.bind_eq_some_iff.mp next
    exact kept.acts lawful there acted
  | arrives n verdict =>
    simp only [World.step] at next
    split at next <;> rename_i flying
    · rename_i request
      cases verdict with
      | takes =>
        cases next
        unfold World.commit
        split <;> rename_i remembered
        · refine kept.answers flying (fun _ inside => inside) kept.memory fun receipt _ => ?_
          obtain ⟨entry, inside, same⟩ := any_eq_true.mp remembered
          exact ⟨entry.2, of_decide_eq_true same ▸ kept.memory entry inside⟩
        · refine kept.answers flying (fun _ inside => mem_cons_of_mem _ inside) ?_
            fun receipt _ => ⟨w.now, mem_cons_self⟩
          intro entry inside
          rcases mem_cons.mp inside with rfl | old
          · exact mem_cons_self
          · exact mem_cons_of_mem _ (kept.memory entry old)
      | refuses e =>
        cases next
        exact kept.answers flying (fun _ inside => inside) kept.memory fun receipt same => (by cases same)
    · cases next
  | sweeps =>
    cases next
    refine kept.retask (length_map _) fun u task found => ?_
    rw [getElem?_map] at found
    obtain ⟨old, was, rfl⟩ := Option.map_eq_some_iff.mp found
    refine ⟨old, was, fun a _ payload completed => ?_⟩
    unfold Task.sweep
    split
    · exact ⟨payload, fun finished => (by cases finished)⟩
    · exact ⟨payload, completed⟩
  | forgets key =>
    simp only [World.step] at next
    split at next <;> cases next
    exact ⟨kept.lengths, kept.tasks, kept.workers, kept.flights, fun entry inside =>
      kept.memory entry (List.mem_filter.mp inside).1⟩

theorem kept_of_reach {ok : World π β → Event → Prop} (lawful : f.codec.Lawful)
    (run : Reach (World.step f) ok .new w) : Kept f w :=
  run.invariant (Kept f)
    ⟨rfl, fun u task a found => (by cases found), fun i worker found => (by cases found),
      fun fl inside => (by cases inside), fun entry inside => (by cases inside)⟩
    fun _ _ _ kept _ next => kept.step lawful next

theorem Kept.accounted (kept : Kept f w) : Accounted f w := by
  intro u a there
  have inside : u < w.tasks.length := kept.lengths ▸ (List.getElem?_eq_some_iff.mp there).1
  have found : w.tasks[u]? = some w.tasks[u] := getElem?_eq_getElem inside
  obtain ⟨payload, completed⟩ := kept.tasks u _ a found there
  refine ⟨_, found, payload, ?_⟩
  cases state : w.tasks[u].state with
  | completed => exact .inr (.inr (.inr (.inr ⟨rfl, completed state⟩)))
  | _ => simp

/-- The head remembers what it committed, for as long as it must. -/
structure Remembers (f : Forwarder π β) (w : World π β) : Prop where
  once : Once w
  held : ∀ c ∈ w.commits, c ∈ w.memory ∨ c.2 + f.maxDeliveryAgeMs < w.now

theorem acts_head {act : Act} (next : w.acts f i worker act = some t) :
    t.commits = w.commits ∧ t.memory = w.memory ∧ t.now = w.now := by
  cases act with
  | restarts =>
    cases next
    exact ⟨rfl, rfl, rfl⟩
  | claims uuid told spread =>
    simp only [World.acts] at next
    split at next
    · split at next <;> cases next
      split <;> exact ⟨rfl, rfl, rfl⟩
    · cases next
  | claimFails spread =>
    simp only [World.acts] at next
    split at next
    · split at next <;> cases next
      exact ⟨rfl, rfl, rfl⟩
    · cases next
  | hears spread =>
    simp only [World.acts] at next
    split at next
    · obtain ⟨answer, -, rfl⟩ := Option.map_eq_some_iff.mp next
      exact ⟨rfl, rfl, rfl⟩
    · cases next
  | sends | loses | completes | parks | quarantines =>
    simp only [World.acts] at next
    split at next <;> cases next
    exact ⟨rfl, rfl, rfl⟩

theorem Remembers.step {e : Event} (kept : Kept f w) (remembers : Remembers f w) (inTime : InTime f w e)
    (next : w.step f e = some t) : Remembers f t := by
  obtain ⟨once, held⟩ := remembers
  cases e with
  | passes ms =>
    cases next
    exact ⟨once, fun c inside => (held c inside).imp_right fun past => past.trans_le (by simp)⟩
  | accepts | starts | sweeps =>
    cases next
    exact ⟨once, held⟩
  | acts i act =>
    obtain ⟨worker, -, acted⟩ := Option.bind_eq_some_iff.mp next
    obtain ⟨commits, memory, now⟩ := acts_head acted
    refine ⟨?_, ?_⟩
    · rw [Once, commits]
      exact once
    · rw [commits, memory, now]
      exact held
  | arrives n verdict =>
    simp only [World.step] at next
    split at next <;> rename_i flying
    · rename_i request
      cases verdict with
      | takes =>
        cases next
        unfold World.commit
        split <;> rename_i forgotten
        · exact ⟨once, held⟩
        · have fresh : ∀ c ∈ w.commits, c.1 ≠ request.key := by
            intro c inside same
            have late := inTime _ flying c inside same
            rcases held c inside with there | past
            · exact forgotten (any_eq_true.mpr ⟨c, there, by simpa using same⟩)
            · omega
          refine ⟨nodup_cons.mpr ⟨?_, once⟩, fun c inside => ?_⟩
          · intro repeated
            obtain ⟨c, inside, same⟩ := mem_map.mp repeated
            exact fresh c inside same
          · rcases mem_cons.mp inside with rfl | old
            · exact .inl mem_cons_self
            · exact (held c old).imp_left (mem_cons_of_mem _)
      | refuses e =>
        cases next
        exact ⟨once, held⟩
    · cases next
  | forgets key =>
    simp only [World.step] at next
    split at next <;> rename_i allowed <;> cases next
    refine ⟨once, fun c inside => ?_⟩
    rcases held c inside with there | past
    · by_cases same : c.1 = key
      · obtain ⟨entry, remembered, old⟩ := any_eq_true.mp allowed
        simp only [Bool.and_eq_true, decide_eq_true_eq] at old
        obtain rfl : entry = c :=
          inj_on_of_nodup_map once (kept.memory entry remembered) inside (old.1.trans same.symm)
        exact .inr old.2
      · exact .inl (List.mem_filter.mpr ⟨there, by simpa using same⟩)
    · exact .inr past

theorem once_of_reach (lawful : f.codec.Lawful) (run : Reach (World.step f) (InTime f) .new w) : Once w := by
  have both : Kept f w ∧ Remembers f w := by
    refine run.invariant (fun w => Kept f w ∧ Remembers f w)
      ⟨@kept_of_reach _ _ _ _ anyStep lawful .start, .nil, fun c inside => (by cases inside)⟩ ?_
    rintro s e t ⟨kept, remembers⟩ inTime next
    exact ⟨kept.step lawful next, remembers.step kept inTime next⟩
  exact both.2.once

theorem twice_of_late (kept : Kept f w) {n : ℕ} {request : CommitBatchRequest} {moment : Int}
    (flying : w.flights[n]? = some ⟨request, none⟩) (first : (request.key, moment) ∈ w.commits)
    (late : moment + f.maxDeliveryAgeMs < w.now) : ∃ t, Reach (World.step f) anyStep w t ∧ ¬ Once t := by
  by_cases once : Once w
  swap
  · exact ⟨w, .start, once⟩
  let forgotten : World π β := { w with memory := w.memory.filter fun entry => entry.1 ≠ request.key }
  have forgets : Reach (World.step f) anyStep w forgotten := by
    by_cases remembered : (w.memory.any fun entry => entry.1 = request.key) = true
    · obtain ⟨entry, inside, same⟩ := any_eq_true.mp remembered
      have key := of_decide_eq_true same
      obtain rfl : entry = (request.key, moment) :=
        inj_on_of_nodup_map once (kept.memory entry inside) first key
      refine .step (.forgets request.key) .start trivial (if_pos (any_eq_true.mpr ⟨_, inside, ?_⟩))
      simpa using late
    · have same : forgotten = w := by
        have kept : (w.memory.filter fun entry => entry.1 ≠ request.key) = w.memory :=
          filter_eq_self.mpr fun entry inside => by
            simpa using fun same => remembered (any_eq_true.mpr ⟨entry, inside, by simpa using same⟩)
        show ({ w with memory := _ } : World π β) = w
        rw [kept]
      exact same ▸ .start
  have absent : ¬ (forgotten.memory.any fun entry => entry.1 = request.key) = true := by
    intro present
    obtain ⟨entry, inside, same⟩ := any_eq_true.mp present
    have apart := (List.mem_filter.mp inside).2
    simp_all
  have next : forgotten.step f (.arrives n .takes) = some { forgotten with
      flights := w.flights.set n ⟨request, some (.ok ⟨false⟩)⟩
      memory := (request.key, w.now) :: forgotten.memory
      commits := (request.key, w.now) :: w.commits } := by
    have there : forgotten.flights[n]? = some ⟨request, none⟩ := flying
    simp only [World.step, there, World.commit, if_neg absent]
    rfl
  refine ⟨_, .step _ forgets trivial next, fun nodup => ?_⟩
  exact (nodup_cons.mp nodup).1 (mem_map.mpr ⟨_, first, rfl⟩)

/-- In every run each accepted batch is accounted for. The head commits none twice in the runs whose
requests reach it while it must still remember the batch, and where one comes later it may. -/
theorem delivered_once (lawful : f.codec.Lawful) : (∀ w, Reach (World.step f) anyStep .new w → Accounted f w) ∧
      (∀ w, Reach (World.step f) (InTime f) .new w → Once w) ∧
      ∀ w n, Reach (World.step f) anyStep .new w → w.flights[n]?.any (fun fl => fl.answer.isNone) = true →
        ¬ InTime f w (.arrives n .takes) → ∃ t, Reach (World.step f) anyStep w t ∧ ¬ Once t := by
  refine ⟨fun w run => (kept_of_reach lawful run).accounted, fun w run => once_of_reach lawful run,
    fun w n run open_ late => ?_⟩
  simp only [InTime, not_forall, not_le] at late
  obtain ⟨fl, flying, c, inside, same, past⟩ := late
  obtain ⟨request, answer⟩ := fl
  have flying : w.flights[n]? = some ⟨request, answer⟩ := flying
  have unanswered : answer = none := by simpa [flying] using open_
  subst unanswered
  have first : (request.key, c.2) ∈ w.commits := same ▸ inside
  exact twice_of_late (kept_of_reach lawful run) flying first past

end

/-! One batch, a forwarder and a day that a retry may take. -/

def plain : Codec (DeliveryTask Batch) Batch :=
  ⟨id, .ok, fun b => b.items.length, fun _ => none, fun b _ => .ok b, id, .ok⟩

theorem plain_lawful : plain.Lawful :=
  ⟨fun _ => rfl, fun _ _ same => (by cases same), fun _ => rfl⟩

def daily : Forwarder (DeliveryTask Batch) Batch := ⟨plain, 16777216, 86400000⟩

def bare : Batch := ⟨List.replicate 16 1, [], none, 0⟩

def source : Bytes := List.replicate 16 7

def lostReply : List Event :=
  [.accepts bare source, .starts, .acts 0 (.claims 0 true 0), .acts 0 .sends, .arrives 0 .takes,
    .acts 0 (.loses (Resolver.unavailable "The head did not answer.") 0), .acts 0 (.parks .told 0)]

def retried : List Event :=
  lostReply ++ [.passes 2000, .sweeps, .acts 0 (.claims 0 true 0), .acts 0 .sends, .arrives 1 .takes,
    .acts 0 (.hears 0), .acts 0 (.completes .told 0)]

def forgotten : List Event :=
  lostReply ++ [.acts 0 .restarts, .passes 90000000, .sweeps, .forgets (source, bare.batchId),
    .acts 0 (.claims 0 true 0), .acts 0 .sends, .arrives 1 .takes]

instance decidableInTime {π β : Type} (f : Forwarder π β) (w : World π β) (e : Event) :
    Decidable (InTime f w e) :=
  match e with
  | .arrives n .takes => inferInstanceAs (Decidable (∀ fl ∈ w.flights[n]?, ∀ c ∈ w.commits,
      c.1 = fl.request.key → w.now ≤ c.2 + f.maxDeliveryAgeMs))
  | .arrives _ (.refuses _) | .passes _ | .accepts _ _ | .starts | .acts _ _ | .sweeps | .forgets _ => isTrue trivial

theorem retried_once : ∃ w, Reach (World.step daily) (InTime daily) .new w ∧
    w.tasks.map Task.state = [.completed] ∧ w.commits.length = 1 ∧ Once w := by
  have ran : (exec (guarded (World.step daily) (InTime daily)) .new retried).any (fun w =>
      w.tasks.map Task.state = [.completed] ∧ w.commits.length = 1) = true := by
    decide +kernel
  obtain ⟨w, run, found⟩ := Reach.of_exec_any ran
  obtain ⟨completed, one⟩ := of_decide_eq_true found
  exact ⟨w, run, completed, one, (delivered_once plain_lawful).2.1 w run⟩

/-- A batch whose first commit was not heard of is sent again a day later, and committed again. -/
theorem committed_twice : ¬ ∀ w, Reach (World.step daily) anyStep .new w → Accounted daily w ∧ Once w := by
  intro always
  have ran : (exec (guarded (World.step daily) anyStep) .new forgotten).any
      (fun w => ¬ (w.commits.map Prod.fst).Nodup) = true := by
    decide +kernel
  obtain ⟨w, run, twice⟩ := Reach.of_exec_any ran
  exact of_decide_eq_true twice (always w run).2

end TallyOwl.Delivery
