import AccessWindows.Proofs.Resolution.Lookup
import AccessWindows.Resolution.Resolver

/-!
# Logs — what was asked, and what was answered

Collaborators may have a state and answer differently from one question to the next.  What they said
in the course of a run is then no function of the questions, and is written down instead: for each
question that a run puts, its log has an `Exchange`.

Writing down changes nothing.  `Logs x y post` says so of a program `x` and its logging counterpart
`y`, from whatever state they are run and whatever has been written before, and that `post` relates
the result to what is added to the log.  The programs of resolution are taken through this one after
the other: a chain is judged by verdicts on answers in the log (`logs_resolveChain`), and a
resolution consists of one discovery and look-ups only (`logs_resolve`).

Hence a chain that is accepted has been shown to be what it is: each of its credentials is held by
its slot or was confirmed under the slot's hash (`JudgedBy.shown`).
-/

namespace AccessWindows

variable {σ α β : Type}

/-! ### Writing down -/

/-- A question, and how it was answered. -/
inductive Exchange where
  | chains (pattern : ResourcePattern) (permission : Permission) (principal : Principal)
      (reply : Reply (List CandidateChain))
  | credential (hash : CredentialHash) (reply : Reply RegistryEntry)
  | resource (stream : StreamId) (reply : Reply Resource)

/-- The registry was asked. -/
def Exchange.IsLookup : Exchange → Prop
  | .credential _ _ => True
  | _ => False

/-- Does what the program does, and writes down its result. -/
def logging (x : StateM σ α) (entry : α → Exchange) : StateM (σ × List Exchange) α :=
  fun (state, log) =>
    let (a, state) := x.run state
    (a, state, log ++ [entry a])

/-- The same collaborators, every question being written down with its answer. -/
def Collaborators.logged (c : Collaborators (StateM σ)) :
    Collaborators (StateM (σ × List Exchange)) where
  chains pattern permission principal :=
    logging (c.chains pattern permission principal) (.chains pattern permission principal)
  credential hash := logging (c.credential hash) (.credential hash)
  resource stream := logging (c.resource stream) (.resource stream)

/-- From any state the second program does what the first does and only adds to the log; what it
adds is so related to the result. -/
def Logs (x : StateM σ α) (y : StateM (σ × List Exchange) α) (post : α → List Exchange → Prop) :
    Prop :=
  ∀ state log, ∃ new,
    y.run (state, log) = ((x.run state).1, (x.run state).2, log ++ new) ∧ post (x.run state).1 new

/-- The log of a run from a state: the logging program does what the first does from there, and this
is what it writes down. -/
def IsLog (x : StateM σ α) (y : StateM (σ × List Exchange) α) (state : σ) (log : List Exchange) :
    Prop :=
  y.run (state, []) = ((x.run state).1, (x.run state).2, log)

/-- A run has one log. -/
theorem IsLog.unique {x : StateM σ α} {y : StateM (σ × List Exchange) α} {state : σ}
    {log log' : List Exchange} (h : IsLog x y state log) (h' : IsLog x y state log') :
    log = log' :=
  congrArg (fun r => r.2.2) (h.symm.trans h')

namespace Logs

variable {x : StateM σ α} {y : StateM (σ × List Exchange) α} {post : α → List Exchange → Prop}

/-- A run has a log, and its result is so related to it. -/
theorem exists_log (h : Logs x y post) (state : σ) :
    ∃ log, IsLog x y state log ∧ post (x.run state).1 log := h state []

/-- What holds of each log and result can be said more weakly. -/
theorem imp {post' : α → List Exchange → Prop} (h : Logs x y post)
    (hpost : ∀ a new, post a new → post' a new) : Logs x y post' := by
  intro state log
  obtain ⟨new, hy, hp⟩ := h state log
  exact ⟨new, hy, hpost _ new hp⟩

/-- What asks nothing writes nothing down. -/
theorem pure {a : α} (h : post a []) : Logs (pure a : StateM σ α) (pure a) post :=
  fun state log => ⟨[], by rw [List.append_nil]; rfl, h⟩

/-- What two programs add is what the first adds, and then what the second does. -/
theorem bind {f : α → StateM σ β} {g : α → StateM (σ × List Exchange) β}
    {next : β → List Exchange → Prop} (h : Logs x y post)
    (hf : ∀ a new, post a new → Logs (f a) (g a) fun b new' => next b (new ++ new')) :
    Logs (x >>= f) (y >>= g) next := by
  intro state log
  obtain ⟨new, hy, hp⟩ := h state log
  obtain ⟨new', hg, hn⟩ := hf _ new hp (x.run state).2 (log ++ new)
  refine ⟨new ++ new', ?_, hn⟩
  rw [← List.append_assoc]
  exact (congrArg (fun r => (g r.1).run r.2) hy).trans hg

/-- What is made of a result adds nothing. -/
theorem bind_pure {f : α → β} {next : β → List Exchange → Prop} (h : Logs x y post)
    (hf : ∀ a new, post a new → next (f a) new) :
    Logs (x >>= fun a => Pure.pure (f a)) (y >>= fun a => Pure.pure (f a)) next :=
  h.bind fun a new ha => .pure (by
    rw [List.append_nil]
    exact hf a new ha)

end Logs

/-- A question is written down once it is answered. -/
theorem logs_logging (x : StateM σ α) (entry : α → Exchange) :
    Logs x (logging x entry) fun a log => log = [entry a] :=
  fun _ _ => ⟨_, rfl, rfl⟩

/-! ### Inquiries -/

section inquiries

variable {ι κ ε : Type}

/-- Questions that are started are written down up to the one that fails at once. -/
theorem logs_startAll {asks : ι → Ended κ ε α → Exchange → Prop} {ask : ι → StateM σ (Ended κ ε α)}
    {ask' : ι → StateM (σ × List Exchange) (Ended κ ε α)}
    (h : ∀ i, Logs (ask i) (ask' i) fun ended log => ∃ x, log = [x] ∧ asks i ended x)
    (keys : List ι) : Logs (startAll ask keys) (startAll ask' keys) (Started asks keys) := by
  induction keys with
  | nil => exact .pure .done
  | cons i rest ih =>
      refine (h i).bind fun ended log ⟨x, hlog, hasks⟩ => ?_
      subst hlog
      split
      next hfails => exact .pure (.failed hasks hfails)
      next => exact ih.bind_pure fun others log hrest => .started hasks hrest

/-- What comes of answers is written down in their order, up to a failure. -/
theorem logs_finishAll {goes : κ → α → β → List Exchange → Prop} {next : κ → α → StateM σ β}
    {next' : κ → α → StateM (σ × List Exchange) β}
    (h : ∀ key answer, Logs (next key answer) (next' key answer) (goes key answer))
    (ends : List (Ended κ ε α)) :
    Logs (finishAll next ends) (finishAll next' ends) (Finished goes ends) := by
  induction ends with
  | nil => exact .pure .done
  | cons ended rest ih =>
      rw [finishAll, finishAll]
      cases hresult : ended.result with
      | error cause => exact .pure (.failed hresult)
      | ok answer =>
          exact (h ended.key answer).bind fun out log hout =>
            ih.bind_pure fun others log' hrest => .answered hresult hout hrest

/-- First the questions are written down, and behind them what comes of their answers. -/
theorem logs_askAll {asks : ι → Ended κ ε α → Exchange → Prop}
    {goes : κ → α → β → List Exchange → Prop} {ask : ι → StateM σ (Ended κ ε α)}
    {ask' : ι → StateM (σ × List Exchange) (Ended κ ε α)} {next : κ → α → StateM σ β}
    {next' : κ → α → StateM (σ × List Exchange) β}
    (hask : ∀ i, Logs (ask i) (ask' i) fun ended log => ∃ x, log = [x] ∧ asks i ended x)
    (hnext : ∀ key answer, Logs (next key answer) (next' key answer) (goes key answer))
    (keys : List ι) :
    Logs (askAll ask next keys) (askAll ask' next' keys) (Inquired asks goes keys) :=
  (logs_startAll hask keys).bind fun ends asked hstarted =>
    (logs_finishAll hnext (Ended.inTime ends)).imp fun _ gone hfinished =>
      ⟨ends, asked, gone, hstarted, hfinished, rfl⟩

end inquiries

/-! ### Look-ups -/

/-- A look-up for a slot ends with the verdict on the answer in the log. -/
def Settings.LooksUp (s : Settings) (slot : Nat × CredentialHash) (a : Arrival) (x : Exchange) :
    Prop :=
  ∃ reply, x = .credential slot.2 reply ∧ a = s.arrival slot.1 slot.2 reply

/-- The log of look-ups has the hashes in the order of their slots. -/
theorem Settings.logs_lookUp (s : Settings) (c : Collaborators (StateM σ))
    (pending : List (Nat × CredentialHash)) :
    Logs (s.lookUp c pending) (s.lookUp c.logged pending) (Started s.LooksUp pending) :=
  logs_startAll (fun (_, hash) =>
    (logs_logging (c.credential hash) (.credential hash)).bind_pure fun reply _ hlog =>
      ⟨_, hlog, reply, rfl, rfl⟩) pending

/-- The slot holds the credential, or the registry confirmed it under the slot's hash. -/
def Slot.Shown (s : Settings) (log : List Exchange) : Slot → Credential → Prop
  | .resolved held, credential => held = credential
  | .unresolved hash, credential =>
    ∃ reply, .credential hash reply ∈ log ∧ s.Confirms hash reply credential

/-- A longer log shows what a shorter one does. -/
theorem Slot.Shown.mono {s : Settings} {log log' : List Exchange} {slot : Slot}
    {credential : Credential} (h : slot.Shown s log credential) (hlog : log ⊆ log') :
    slot.Shown s log' credential := by
  cases slot with
  | resolved held => exact h
  | unresolved hash => exact h.imp fun _ hr => ⟨hlog hr.1, hr.2⟩

namespace Request

variable {q : Request} {s : Settings} {c : Collaborators (StateM σ)}

/-- A candidate was judged by the look-ups for its slots, which are in the log, in the order of time
in which they ended. -/
def JudgedBy (q : Request) (s : Settings) (log : List Exchange) (chain : CandidateChain)
    (outcome : Except Rejection ResolvedChain) : Prop :=
  ∃ arrivals, ∃ part ⊆ log, Started s.LooksUp chain.pending arrivals part ∧
    outcome = q.judge chain (Ended.inTime arrivals)

/-- A longer log judges a chain as a shorter one does. -/
theorem JudgedBy.mono {log log' : List Exchange} {chain : CandidateChain}
    {outcome : Except Rejection ResolvedChain} (h : q.JudgedBy s log chain outcome)
    (hlog : log ⊆ log') : q.JudgedBy s log' chain outcome := by
  obtain ⟨arrivals, part, hpart, hjudged⟩ := h
  exact ⟨arrivals, part, List.Subset.trans hpart hlog, hjudged⟩

/-- A chain writes down look-ups only, and is judged by them. -/
theorem logs_resolveChain (q : Request) (s : Settings) (c : Collaborators (StateM σ))
    (chain : CandidateChain) :
    Logs (q.resolveChain c s chain) (q.resolveChain c.logged s chain) fun outcome log =>
      q.JudgedBy s log chain outcome ∧ ∀ x ∈ log, x.IsLookup := by
  refine (s.logs_lookUp c chain.pending).bind_pure fun arrivals log hstarted =>
    ⟨⟨arrivals, log, List.Subset.refl _, hstarted, rfl⟩, fun x hx => ?_⟩
  obtain ⟨-, -, -, -, reply, rfl, -⟩ := hstarted.exists_ended x hx
  trivial

/-- Several chains write down look-ups only, and each is judged by all of them. -/
theorem logs_mapM_resolveChain (q : Request) (s : Settings) (c : Collaborators (StateM σ))
    (chains : List CandidateChain) :
    Logs (chains.mapM (q.resolveChain c s)) (chains.mapM (q.resolveChain c.logged s))
      fun outcomes log =>
        List.Forall₂ (q.JudgedBy s log) chains outcomes ∧ ∀ x ∈ log, x.IsLookup := by
  induction chains with
  | nil => exact .pure ⟨.nil, List.forall_mem_nil _⟩
  | cons chain chains ih =>
      rw [List.mapM_cons, List.mapM_cons]
      refine (q.logs_resolveChain s c chain).bind fun outcome log ⟨hj, hlookups⟩ => ?_
      refine ih.bind_pure fun outcomes log' ⟨hjs, hlookups'⟩ => ?_
      refine ⟨.cons (hj.mono (List.subset_append_left _ _)) (hjs.imp fun _ _ hj => hj.mono
        (List.subset_append_right _ _)), fun x hx => ?_⟩
      exact (List.mem_append.mp hx).elim (hlookups x) (hlookups' x)

/-- A candidate that is accepted was shown to be what it is. -/
theorem JudgedBy.shown {log : List Exchange} {chain : CandidateChain} {r : ResolvedChain}
    (h : q.JudgedBy s log chain (.ok r)) :
    List.Forall₂ (Slot.Shown s log) chain.slots r.credentials ∧ q.Reaches r.credentials := by
  obtain ⟨arrivals, part, hpart, hstarted, hj⟩ := h
  have hfilled := brought_of_judge hj.symm
  refine ⟨hfilled.1.imp fun slot credential hs => ?_, hfilled.2⟩
  rcases hs with rfl | ⟨a, ha, hplace, hresult⟩
  · rfl
  · obtain ⟨⟨place, hash⟩, hp, _, hx, reply, rfl, rfl⟩ :=
      hstarted.exists_asked a (Ended.mem_inTime.mp ha)
    cases hplace.symm.trans (CandidateChain.mem_pending_iff.mp hp)
    exact ⟨reply, hpart hx, Settings.verdict_eq_ok_iff.mp hresult⟩

/-! ### Resolution -/

/-- How the candidates of a request are resolved: there are look-ups, by which each candidate is
judged, and nothing else. -/
structure Resolves (q : Request) (s : Settings) (chains : List CandidateChain) (r : Resolution)
    (log : List Exchange) : Prop where
  exists_judged : ∃ outcomes, List.Forall₂ (q.JudgedBy s log) chains outcomes ∧
    r = .ofOutcomes outcomes
  only : ∀ x ∈ log, x.IsLookup

/-- Resolution of discovered candidates writes down look-ups only. -/
theorem logs_resolveAll (q : Request) (s : Settings) (c : Collaborators (StateM σ))
    (chains : List CandidateChain) :
    Logs (q.resolveAll c s chains) (q.resolveAll c.logged s chains) (q.Resolves s chains) :=
  (q.logs_mapM_resolveChain s c chains).bind_pure fun outcomes _ ⟨hjudged, honly⟩ =>
    ⟨⟨outcomes, hjudged, rfl⟩, honly⟩

/-- Discovery is written down as one question, and its end tells what came of the reply. -/
theorem logs_discover (q : Request) (s : Settings) (c : Collaborators (StateM σ)) :
    Logs (q.discover c s) (q.discover c.logged s) fun ended log => ∃ reply,
      log = [.chains q.resource.toPattern q.permission q.principal reply] ∧
        ended = ⟨reply.endsAfter s.discoveryTimeout.toNat, q.resource, q.candidates s reply⟩ :=
  (logs_logging (c.chains q.resource.toPattern q.permission q.principal)
    (.chains q.resource.toPattern q.permission q.principal)).bind_pure fun reply _ hlog =>
      ⟨reply, hlog, rfl⟩

/-- How a resolution goes: discovery is asked once; if it fails that is all, and otherwise its
candidates are resolved. -/
inductive Course (q : Request) (s : Settings) : Except AccessError Resolution → List Exchange → Prop
  | failed {reply : Reply (List CandidateChain)} {cause : AccessError}
      (h : q.candidates s reply = .error cause) :
      Course q s (.error cause) [.chains q.resource.toPattern q.permission q.principal reply]
  | resolved {reply : Reply (List CandidateChain)} {chains : List CandidateChain}
      {r : Resolution} {lookups : List Exchange} (h : q.candidates s reply = .ok chains)
      (resolves : q.Resolves s chains r lookups) :
      Course q s (.ok r) (.chains q.resource.toPattern q.permission q.principal reply :: lookups)

/-- The log of a request is that of its discovery, and of the look-ups that follow. -/
theorem logs_resolve (q : Request) (s : Settings) (c : Collaborators (StateM σ)) :
    Logs (q.resolve c s) (q.resolve c.logged s) (q.Course s) := by
  refine (q.logs_discover s c).bind fun ended log ⟨reply, hlog, hended⟩ => ?_
  subst hlog hended
  cases hc : q.candidates s reply with
  | error cause => exact .pure (.failed hc)
  | ok chains =>
      exact (q.logs_resolveAll s c chains).bind_pure fun _ _ hresolves => .resolved hc hresolves

end Request

end AccessWindows
