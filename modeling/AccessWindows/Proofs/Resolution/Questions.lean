import AccessWindows.Proofs.Resolution.Log

/-!
# Questions — what is asked of services whose answers are fixed

Where the answers are fixed, a run can be told in advance: its result is that of the program that
neither counts nor writes down, and the questions that it puts are a function of the answers.
`Asks x y new` says so of a program `x` and its counterpart `y`, which counts its questions and
writes them down, from whatever counts it is run and whatever has been written before.

A chain whose look-ups are all confirmed is asked for slot by slot (`asks_resolveChain`), and the
candidates of a request chain by chain (`asks_resolveAll`).  The counts are those of the log
(`Questions.after_eq`).
-/

namespace AccessWindows

variable {α β : Type}

/-! ### Counting -/

/-- The counts after one more question. -/
def Questions.add (asked : Questions) : Exchange → Questions
  | .chains _ _ _ _ => { asked with chains := asked.chains + 1 }
  | .credential _ _ => { asked with credentials := asked.credentials + 1 }
  | .resource _ _ => { asked with resources := asked.resources + 1 }

/-- The counts after the questions of a log. -/
def Questions.after (asked : Questions) (log : List Exchange) : Questions := log.foldl add asked

/-- The counts after two logs, one behind the other, are those of the second on top of those of the
first. -/
theorem Questions.after_append (asked : Questions) (log log' : List Exchange) :
    asked.after (log ++ log') = (asked.after log).after log' := List.foldl_append

/-- What discovery was asked for. -/
def Exchange.discovery? : Exchange → Option (ResourcePattern × Permission × Principal)
  | .chains pattern permission principal _ => some (pattern, permission, principal)
  | _ => none

/-- The hash that the registry was asked for. -/
def Exchange.hash? : Exchange → Option CredentialHash
  | .credential hash _ => some hash
  | _ => none

/-- The stream that the index was asked for. -/
def Exchange.stream? : Exchange → Option StreamId
  | .resource stream _ => some stream
  | _ => none

/-- **The counts are those of the log**: each question counts with the service that it was put to.
-/
theorem Questions.after_eq (asked : Questions) (log : List Exchange) :
    asked.after log =
      { chains := asked.chains + (log.filterMap Exchange.discovery?).length
        credentials := asked.credentials + (log.filterMap Exchange.hash?).length
        resources := asked.resources + (log.filterMap Exchange.stream?).length } := by
  induction log generalizing asked with
  | nil => rfl
  | cons x log ih =>
      have hstep : asked.after (x :: log) = (asked.add x).after log := rfl
      rw [hstep, ih]
      cases x <;> simp [add, Exchange.discovery?, Exchange.hash?, Exchange.stream?,
        List.filterMap_cons, Nat.add_assoc, Nat.add_comm 1]

/-! ### Asking -/

/-- Counting and writing down, the second program does what the first does, and these are the
questions that it puts. -/
def Asks (x : Id α) (y : StateM (Questions × List Exchange) α) (new : List Exchange) : Prop :=
  ∀ asked log, y.run (asked, log) = (x.run, asked.after new, log ++ new)

namespace Asks

variable {x : Id α} {y : StateM (Questions × List Exchange) α} {new : List Exchange}

/-- What asks nothing leaves the counts and the log as they were. -/
theorem pure (a : α) : Asks (Pure.pure a) (Pure.pure a) [] := by
  intro asked log
  rw [List.append_nil]
  rfl

/-- The result of the first program is fixed, so that what the second one asks is known. -/
theorem bind {f : α → Id β} {g : α → StateM (Questions × List Exchange) β}
    {new' : List Exchange} (h : Asks x y new) (hf : Asks (f x.run) (g x.run) new') :
    Asks (x >>= f) (y >>= g) (new ++ new') := by
  intro asked log
  have hg := hf (asked.after new) (log ++ new)
  rw [← Questions.after_append, List.append_assoc] at hg
  exact (congrArg (fun r => (g r.1).run r.2) (h asked log)).trans hg

/-- What is made of a result asks nothing. -/
theorem bind_pure {f : α → β} (h : Asks x y new) :
    Asks (x >>= fun a => Pure.pure (f a)) (y >>= fun a => Pure.pure (f a)) new := by
  intro asked log
  have hy := h asked log
  exact congrArg (fun r => (f r.1, r.2)) hy

/-- The program that counts but does not write down has the same result and the same counts, and
this is its log. -/
theorem run_eq {plain : StateM Questions α} {post : α → List Exchange → Prop} (h : Asks x y new)
    (hlogs : Logs plain y post) (asked : Questions) :
    IsLog plain y asked new ∧ plain.run asked = (x.run, asked.after new) := by
  obtain ⟨log, hlog, -⟩ := hlogs.exists_log asked
  have hy := h asked []
  rw [List.nil_append] at hy
  obtain ⟨hresult, hrest⟩ := Prod.mk.inj (hlog.symm.trans hy)
  obtain ⟨hcounts, rfl⟩ := Prod.mk.inj hrest
  exact ⟨hlog, Prod.ext hresult hcounts⟩

/-- The parts of a traversal ask one after the other. -/
theorem mapM {f : α → Id β} {g : α → StateM (Questions × List Exchange) β}
    {part : α → List Exchange} {xs : List α} (h : ∀ a ∈ xs, Asks (f a) (g a) (part a)) :
    Asks (xs.mapM f) (xs.mapM g) (xs.flatMap part) := by
  induction xs with
  | nil => exact .pure []
  | cons a xs ih =>
      obtain ⟨ha, h⟩ := List.forall_mem_cons.mp h
      rw [List.mapM_cons, List.mapM_cons, List.flatMap_cons]
      exact ha.bind (ih h).bind_pure

end Asks

section inquiries

variable {ι κ ε : Type}

/-- If no question fails, they are put one after the other. -/
theorem asks_startAll {ask : ι → Id (Ended κ ε α)}
    {ask' : ι → StateM (Questions × List Exchange) (Ended κ ε α)} {entry : ι → Exchange}
    {keys : List ι} (h : ∀ i ∈ keys, Asks (ask i) (ask' i) [entry i])
    (hok : ∀ i ∈ keys, ∃ answer, (ask i).run.result = .ok answer) :
    Asks (startAll ask keys) (startAll ask' keys) (keys.map entry) := by
  induction keys with
  | nil => exact .pure []
  | cons i rest ih =>
      obtain ⟨hi, h⟩ := List.forall_mem_cons.mp h
      obtain ⟨⟨answer, ha⟩, hok⟩ := List.forall_mem_cons.mp hok
      refine hi.bind ?_
      simp only [Ended.not_failsAtOnce_of_ok ha, Bool.false_eq_true, if_false]
      exact (ih h hok).bind_pure

/-- What comes of the answers is asked for in the order in which these come. -/
theorem asks_finishAll {next : κ → α → Id β}
    {next' : κ → α → StateM (Questions × List Exchange) β} {part : κ → List Exchange}
    {ends : List (Ended κ ε α)}
    (h : ∀ ended ∈ ends, ∃ answer, ended.result = .ok answer ∧
      Asks (next ended.key answer) (next' ended.key answer) (part ended.key)) :
    Asks (finishAll next ends) (finishAll next' ends) ((ends.map Ended.key).flatMap part) := by
  induction ends with
  | nil => exact .pure _
  | cons ended rest ih =>
      obtain ⟨⟨answer, ha, hasks⟩, h⟩ := List.forall_mem_cons.mp h
      rw [finishAll, finishAll]
      simp only [ha]
      exact hasks.bind (ih h).bind_pure

/-- If no question fails, all are put, and then what comes of the answers is asked for, in some
order of the keys. -/
theorem asks_askAll {ask : κ → Id (Ended κ ε α)}
    {ask' : κ → StateM (Questions × List Exchange) (Ended κ ε α)} {next : κ → α → Id β}
    {next' : κ → α → StateM (Questions × List Exchange) β} {entry : κ → Exchange}
    (part : κ → List Exchange) {keys : List κ} (hkey : ∀ key, (ask key).run.key = key)
    (h : ∀ key ∈ keys, Asks (ask key) (ask' key) [entry key])
    (hok : ∀ key ∈ keys, ∃ answer, (ask key).run.result = .ok answer ∧
      Asks (next key answer) (next' key answer) (part key)) :
    ∃ order : List κ, order.Perm keys ∧ Asks (askAll ask next keys) (askAll ask' next' keys)
      (keys.map entry ++ order.flatMap part) := by
  have hanswers : ∀ key ∈ keys, ∃ answer, (ask key).run.result = .ok answer := fun key hk =>
    (hok key hk).imp fun _ ha => ha.1
  have hends := run_startAll hanswers
  refine ⟨(Ended.inTime (startAll ask keys).run).map Ended.key, ?_, ?_⟩
  · refine ((Ended.inTime_perm _).map Ended.key).trans (.of_eq ?_)
    rw [hends, List.map_map]
    exact (List.map_congr_left fun key _ => hkey key).trans (List.map_id _)
  · refine (asks_startAll h hanswers).bind (asks_finishAll fun ended he => ?_)
    rw [Ended.mem_inTime, hends] at he
    obtain ⟨key, hk, rfl⟩ := List.mem_map.mp he
    rw [hkey key]
    exact hok key hk

end inquiries

/-- The hashes that the slots of a chain hold in place of credentials. -/
def CandidateChain.openHashes (c : CandidateChain) : List CredentialHash :=
  c.slots.filterMap Slot.pending?

/-- The hashes that are pending are those of the open slots, in their order. -/
theorem CandidateChain.map_pending (c : CandidateChain) :
    c.pending.map Prod.snd = c.openHashes := by
  have hslots : c.slots.zipIdx.map Prod.fst = c.slots := List.zipIdx_map_fst 0 c.slots
  rw [pending, List.map_filterMap, openHashes, ← hslots, List.filterMap_map, hslots]
  congr 1
  funext p
  rw [Option.map_map]
  exact Option.map_id'

/-- Each hash that the chain leaves open is confirmed. -/
def CandidateChain.Confirmed (s : Settings) (c : Collaborators Id) (chain : CandidateChain) :
    Prop :=
  ∀ hash ∈ chain.openHashes, ∃ credential, s.Confirms hash (c.credential hash).run credential

namespace Collaborators

variable (c : Collaborators Id)

/-- Look-ups for some hashes, as they stand in a log. -/
def lookUps (hashes : List CredentialHash) : List Exchange :=
  hashes.map fun hash => .credential hash (c.credential hash).run

/-- A discovery, as it stands in a log. -/
def discovery (q : Request) : Exchange :=
  .chains q.resource.toPattern q.permission q.principal
    (c.chains q.resource.toPattern q.permission q.principal).run

/-- What is picked from a log of look-ups is picked hash by hash. -/
theorem filterMap_lookUps (f : Exchange → Option β) (hashes : List CredentialHash) :
    (c.lookUps hashes).filterMap f =
      hashes.filterMap fun hash => f (.credential hash (c.credential hash).run) :=
  List.filterMap_map

/-- Discovery is one question. -/
theorem asks_chains (q : Request) :
    Asks (c.chains q.resource.toPattern q.permission q.principal)
      (c.counted.logged.chains q.resource.toPattern q.permission q.principal)
      [c.discovery q] := fun _ _ => rfl

/-- A look-up in the registry is one question. -/
theorem asks_credential (hash : CredentialHash) :
    Asks (c.credential hash) (c.counted.logged.credential hash) (c.lookUps [hash]) :=
  fun _ _ => rfl

/-- A look-up in the index is one question. -/
theorem asks_resource (stream : StreamId) :
    Asks (c.resource stream) (c.counted.logged.resource stream)
      [.resource stream (c.resource stream).run] := fun _ _ => rfl

end Collaborators

/-! ### Resolution -/

/-- If each hash is confirmed none fails, and all are asked for in the order of their slots. -/
theorem Settings.asks_lookUp {s : Settings} {c : Collaborators Id}
    {pending : List (Nat × CredentialHash)}
    (h : ∀ p ∈ pending, ∃ credential, s.Confirms p.2 (c.credential p.2).run credential) :
    Asks (s.lookUp c pending) (s.lookUp c.counted.logged pending)
      (c.lookUps (pending.map Prod.snd)) := by
  have hlookups : c.lookUps (pending.map Prod.snd) =
      pending.map fun p => .credential p.2 (c.credential p.2).run := List.map_map
  rw [hlookups]
  refine asks_startAll (fun p _ => (c.asks_credential p.2).bind_pure) fun p hp => ?_
  obtain ⟨credential, hc⟩ := h p hp
  exact ⟨credential, Settings.verdict_eq_ok_iff.mpr hc⟩

namespace Request

variable {q : Request} {s : Settings} {c : Collaborators Id}

/-- A confirmed chain asks for the hashes that it leaves open, and for no others. -/
theorem asks_resolveChain {chain : CandidateChain} (h : chain.Confirmed s c) :
    Asks (q.resolveChain c s chain) (q.resolveChain c.counted.logged s chain)
      (c.lookUps chain.openHashes) := by
  rw [← chain.map_pending]
  refine Asks.bind_pure (Settings.asks_lookUp ?_)
  intro p hp
  apply h
  rw [← chain.map_pending]
  exact List.mem_map_of_mem hp

/-- To discover candidates is one question, whatever comes of the reply. -/
theorem asks_discover (q : Request) (s : Settings) (c : Collaborators Id) :
    Asks (q.discover c s) (q.discover c.counted.logged s) [c.discovery q] :=
  (c.asks_chains q).bind_pure

/-- Confirmed chains ask one after the other. -/
theorem asks_resolveAll {chains : List CandidateChain}
    (h : ∀ chain ∈ chains, chain.Confirmed s c) :
    Asks (q.resolveAll c s chains) (q.resolveAll c.counted.logged s chains)
      (c.lookUps (chains.flatMap CandidateChain.openHashes)) := by
  have hlookups : c.lookUps (chains.flatMap CandidateChain.openHashes) =
      chains.flatMap fun chain => c.lookUps chain.openHashes := List.map_flatMap
  rw [hlookups]
  exact (Asks.mapM fun chain hm => asks_resolveChain (h chain hm)).bind_pure

end Request

end AccessWindows
