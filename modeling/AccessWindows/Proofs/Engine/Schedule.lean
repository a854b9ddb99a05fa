import AccessWindows.Proofs.Engine.ValidRanges
import AccessWindows.Proofs.Resolution.Schedule

/-!
# Schedules of an engine — they all come to its answer

An engine over fixed answers resolves its candidates one after the other.  Resolved side by side, on
any schedule and any number of them at a time, they come to the same valid ranges and to the same
numbers in the report (`explain_of_schedule`).  What may differ is the order of the chains, and for
which of several causes a chain is dropped.
-/

namespace AccessWindows.Engine

variable {e : Engine Id} {q : Request} {chains : List CandidateChain}

/-- What the engine makes of a candidate is what it comes to on any schedule, causes of rejections
aside. -/
theorem toOption_outcomes (e : Engine Id) (q : Request) (chains : List CandidateChain) :
    (e.outcomes q chains).map Except.toOption =
      chains.map (q.accepted? (e.settings.answer e.collaborators)) := by
  rw [outcomes, List.map_map]
  exact List.map_congr_left fun chain _ =>
    Request.toOption_judge (e.settings.answers_inTime e.collaborators chain.pending)

/-- **The answer does not depend on scheduling.**  If discovery yields the candidates in time, the
engine answers, and each candidate counts once in the report, as one that holds up or as one that
does not.  Let the candidates be resolved side by side instead, some positive number of them at a
time at most.  No schedule goes on forever, and none stops before all candidates are finished; and
when they are, each of them has been finished once, and together they come to the valid ranges and
to the numbers of the answer. -/
theorem explain_of_schedule (h : e.Discovers q chains) :
    ∃ r : Resolution, (e.explain q).run = .ok (.ofChains r.chains, r.report) ∧
      r.report.candidates = chains.length ∧
      r.report.resolved + r.report.rejectedTotal = chains.length ∧
      ∀ cap, 0 < cap →
        (WellFounded fun p' p => Pool.Step q (e.settings.answer e.collaborators) cap p p') ∧
        ∀ p, Pool.Run q (e.settings.answer e.collaborators) cap (.start chains) p →
          (¬ p.Complete → ∃ p', Pool.Step q (e.settings.answer e.collaborators) cap p p') ∧
          (p.Complete → (p.finished.map Prod.snd).Perm (List.range chains.length) ∧
            p.resolution.Agree r) := by
  have hlength : (e.outcomes q chains).length = chains.length := List.length_map _
  refine ⟨.ofOutcomes (e.outcomes q chains), run_explain_of_discovers h, hlength,
    (Resolution.resolved_add_rejectedTotal _).trans hlength, fun cap hcap =>
    ⟨Pool.wellFounded_step q _ cap, fun p hrun => ⟨Pool.exists_step hcap, fun hc => ?_⟩⟩⟩
  have hp := Pool.Sound.of_run hrun
  refine ⟨hp.places_perm hc, Resolution.agree_of_perm ?_⟩
  rw [toOption_outcomes]
  exact hp.outcomes_perm hc

/-! ### A chain that is overtaken -/

namespace Sample

/-- Two hops known by their hashes. -/
def unknownHops : CandidateChain :=
  ⟨[.unresolved ⟨.replicate 32 0⟩, .unresolved ⟨.replicate 32 1⟩]⟩

/-- The registry is out of reach. -/
def cutOff : Engine Id :=
  ⟨collaborators [unknownHops, oneHop] ⟨0, .error (.network "no route")⟩, {},
    Settings.check_usual⟩

/-- The chain that the second candidate is. -/
def granted : ResolvedChain := ⟨[grant "root" "alice" 400 500], List.cons_ne_nil _ _⟩

/-- The second candidate was finished first. -/
def overtaken : Pool := ⟨[], [], [(.ok granted, 1), (.error .lookupFailed, 0)]⟩

/-- Both candidates are started, the second is finished, the look-up for the second hop of the
first fails, and the one for its first hop is abandoned. -/
theorem run_overtaken :
    Pool.Run question (cutOff.settings.answer cutOff.collaborators) 2
      (.start [unknownHops, oneHop]) overtaken := by
  let verdict := cutOff.settings.answer cutOff.collaborators
  let first := Task.start unknownHops 0
  let second := Task.start oneHop 1
  let failed : Task :=
    { first with
      awaited := [(0, ⟨.replicate 32 0⟩)]
      ended := [⟨7, 1, .error .lookupFailed⟩] }
  have hstart : Pool.Step question verdict 2 (.start [unknownHops, oneHop])
      ⟨[(oneHop, 1)], [first], []⟩ := .start (by decide)
  have hnext : Pool.Step question verdict 2 ⟨[(oneHop, 1)], [first], []⟩
      ⟨[], [first] ++ [second], []⟩ := .start (by decide)
  have hovertake : Pool.Step question verdict 2 ⟨[], [first] ++ second :: [], []⟩
      ⟨[], [first] ++ [], [(.ok granted, 1)]⟩ :=
    .finish ⟨Or.inl rfl, [], .refl _, rfl⟩
  have hawaited : (1, ⟨.replicate 32 1⟩) ∈ first.awaited :=
    List.mem_cons_of_mem _ List.mem_cons_self
  have hlookUp : first.Step verdict failed := .lookUp 7 hawaited
  have hfail : Pool.Step question verdict 2 ⟨[], [] ++ first :: [], [(.ok granted, 1)]⟩
      ⟨[], [] ++ failed :: [], [(.ok granted, 1)]⟩ := .lookUp hlookUp
  have habandon : Pool.Step question verdict 2 ⟨[], [] ++ failed :: [], [(.ok granted, 1)]⟩
      overtaken :=
    .finish ⟨Or.inr ⟨_, List.mem_cons_self, Bool.false_ne_true⟩, _, .refl _, rfl⟩
  exact .tail (.tail (.tail (.tail (.single hstart) hnext) hovertake) hfail) habandon

end Sample

open Sample

theorem explain_of_overtaken :
    cutOff.Discovers question [unknownHops, oneHop] ∧ 0 < 2 ∧
      Pool.Run question (cutOff.settings.answer cutOff.collaborators) 2
        (.start [unknownHops, oneHop]) overtaken ∧
      overtaken.Complete ∧
      ∃ r : Resolution, (cutOff.explain question).run = .ok (.ofChains r.chains, r.report) ∧
        r.report.resolved + r.report.rejectedTotal = 2 ∧
        (overtaken.finished.map Prod.snd).Perm (List.range 2) ∧ overtaken.resolution.Agree r := by
  have hd : cutOff.Discovers question [unknownHops, oneHop] := rfl
  have hc : overtaken.Complete := ⟨rfl, rfl⟩
  obtain ⟨r, hr, -, hsum, hall⟩ := explain_of_schedule hd
  obtain ⟨-, hruns⟩ := hall 2 Nat.two_pos
  obtain ⟨hplaces, hagree⟩ := (hruns overtaken run_overtaken).2 hc
  exact ⟨hd, Nat.two_pos, run_overtaken, hc, r, hr, hsum, hplaces, hagree⟩

end AccessWindows.Engine
