import AccessWindows.Inquiry
import AccessWindows.Proofs.StableSort
import AccessWindows.Proofs.Steps

/-!
# Inquiries — which question decides

How an inquiry goes is told by what a single question may come to: questions are started one after
the other (`Started`), and what they bring is gone through in the order of time (`Finished`).  A
question leaves one entry in a log, and what is done with its answer may leave more.

An inquiry that fails does so for the question that was the first of all to fail, and unless that
failed at once all questions were started (`Inquired.first_of_error`).  One that succeeds has an
answer for each of the keys (`Inquired.lookup_of_ok`) and nothing else (`Inquired.of_mem`), in
whatever order the answers came.
-/

namespace AccessWindows

variable {ι κ ε α β ω : Type}

/-! ### The order of time -/

namespace Ended

theorem inTime_perm (ends : List (Ended κ ε α)) : (inTime ends).Perm ends :=
  List.mergeSort_perm _ _

theorem mem_inTime {ends : List (Ended κ ε α)} {e : Ended κ ε α} : e ∈ inTime ends ↔ e ∈ ends :=
  List.mem_mergeSort

theorem isOrdering_time : IsOrdering fun a b : Ended κ ε α => decide (a.time ≤ b.time) :=
  .of_total (fun _ _ _ => Nat.le_trans) fun a b => Nat.le_total a.time b.time

theorem not_failsAtOnce_of_ok {e : Ended κ ε α} {answer : α} (h : e.result = .ok answer) :
    e.failsAtOnce = false := by
  rw [failsAtOnce, h]
  exact Bool.and_false _

end Ended

/-! ### How an inquiry goes -/

/-- How questions are started, if `asks` is how one of them ends, with its entry in the log. -/
inductive Started (asks : ι → Ended κ ε α → ω → Prop) :
    List ι → List (Ended κ ε α) → List ω → Prop
  | done : Started asks [] [] []
  | failed {i : ι} {rest : List ι} {ended : Ended κ ε α} {x : ω} (h : asks i ended x)
      (hfails : ended.failsAtOnce = true) : Started asks (i :: rest) [ended] [x]
  | started {i : ι} {rest : List ι} {ended : Ended κ ε α} {others : List (Ended κ ε α)} {x : ω}
      {log : List ω} (h : asks i ended x) (hrest : Started asks rest others log) :
      Started asks (i :: rest) (ended :: others) (x :: log)

/-- How their ends are gone through, if `goes` is what comes of an answer, with what that leaves in
the log. -/
inductive Finished (goes : κ → α → β → List ω → Prop) :
    List (Ended κ ε α) → Except ε (List (κ × β)) → List ω → Prop
  | done : Finished goes [] (.ok []) []
  | failed {ended : Ended κ ε α} {rest : List (Ended κ ε α)} {cause : ε}
      (h : ended.result = .error cause) : Finished goes (ended :: rest) (.error cause) []
  | answered {ended : Ended κ ε α} {rest : List (Ended κ ε α)} {answer : α} {out : β}
      {others : Except ε (List (κ × β))} {log log' : List ω} (h : ended.result = .ok answer)
      (hout : goes ended.key answer out log) (hrest : Finished goes rest others log') :
      Finished goes (ended :: rest) (others.map fun outs => (ended.key, out) :: outs) (log ++ log')

/-- How an inquiry goes: all questions are started, and then their ends are gone through in the
order of time. -/
structure Inquired (asks : ι → Ended κ ε α → ω → Prop) (goes : κ → α → β → List ω → Prop)
    (keys : List ι) (result : Except ε (List (κ × β))) (log : List ω) : Prop where
  course : ∃ ends asked gone, Started asks keys ends asked ∧
    Finished goes (Ended.inTime ends) result gone ∧ log = asked ++ gone

/-! ### Questions that are started -/

namespace Started

variable {asks : ι → Ended κ ε α → ω → Prop} {keys : List ι} {ends : List (Ended κ ε α)}
  {log : List ω}

/-- Each end is that of a question in the log. -/
theorem exists_asked (h : Started asks keys ends log) :
    ∀ ended ∈ ends, ∃ i ∈ keys, ∃ x ∈ log, asks i ended x := by
  induction h with
  | done => exact List.forall_mem_nil _
  | failed h =>
      exact List.forall_mem_singleton.mpr ⟨_, List.mem_cons_self, _, List.mem_cons_self, h⟩
  | started h _ ih =>
      refine List.forall_mem_cons.mpr
        ⟨⟨_, List.mem_cons_self, _, List.mem_cons_self, h⟩, fun other ho => ?_⟩
      obtain ⟨j, hj, x, hx, hasks⟩ := ih other ho
      exact ⟨j, List.mem_cons_of_mem _ hj, x, List.mem_cons_of_mem _ hx, hasks⟩

/-- Each entry in the log is there for a question that ended. -/
theorem exists_ended (h : Started asks keys ends log) :
    ∀ x ∈ log, ∃ ended ∈ ends, ∃ i ∈ keys, asks i ended x := by
  induction h with
  | done => exact List.forall_mem_nil _
  | failed h =>
      exact List.forall_mem_singleton.mpr ⟨_, List.mem_cons_self, _, List.mem_cons_self, h⟩
  | started h _ ih =>
      refine List.forall_mem_cons.mpr
        ⟨⟨_, List.mem_cons_self, _, List.mem_cons_self, h⟩, fun x hx => ?_⟩
      obtain ⟨ended, he, i, hi, hasks⟩ := ih x hx
      exact ⟨ended, List.mem_cons_of_mem _ he, i, List.mem_cons_of_mem _ hi, hasks⟩

/-- **Every question is started** unless one fails at once. -/
theorem all_or_atOnce (h : Started asks keys ends log) :
    (∀ i ∈ keys, ∃ ended ∈ ends, ∃ x ∈ log, asks i ended x) ∨
      ∃ ended ∈ ends, ended.failsAtOnce = true := by
  induction h with
  | done => exact .inl (List.forall_mem_nil _)
  | failed _ hfails => exact .inr ⟨_, List.mem_cons_self, hfails⟩
  | started h _ ih =>
      rcases ih with ih | ⟨other, ho, hfails⟩
      · refine .inl (List.forall_mem_cons.mpr
          ⟨⟨_, List.mem_cons_self, _, List.mem_cons_self, h⟩, fun j hj => ?_⟩)
        obtain ⟨other, ho, x, hx, hasks⟩ := ih j hj
        exact ⟨other, List.mem_cons_of_mem _ ho, x, List.mem_cons_of_mem _ hx, hasks⟩
      · exact .inr ⟨other, List.mem_cons_of_mem _ ho, hfails⟩

/-- If none fails, every question was started. -/
theorem all_of_ok (h : Started asks keys ends log)
    (hok : ∀ ended ∈ ends, ∃ answer, ended.result = .ok answer) :
    ∀ i ∈ keys, ∃ ended ∈ ends, ∃ x ∈ log, asks i ended x := by
  refine h.all_or_atOnce.resolve_right ?_
  rintro ⟨ended, he, hfails⟩
  obtain ⟨answer, ha⟩ := hok ended he
  rw [Ended.not_failsAtOnce_of_ok ha] at hfails
  cases hfails

end Started

/-! ### Answers that are gone through -/

namespace Finished

variable {goes : κ → α → β → List ω → Prop} {ends : List (Ended κ ε α)} {log : List ω}

/-- If they fail, it is for the first that does. -/
theorem failed_of_error {cause : ε} (h : Finished goes ends (.error cause) log) :
    ∃ before ended after, ends = before ++ ended :: after ∧ ended.result = .error cause ∧
      ∀ other ∈ before, ∃ answer, other.result = .ok answer := by
  generalize hresult : (Except.error cause : Except ε (List (κ × β))) = result at h
  induction h with
  | done => cases hresult
  | @failed ended rest cause' h =>
      cases hresult
      exact ⟨[], ended, rest, rfl, h, List.forall_mem_nil _⟩
  | @answered ended rest answer out others log log' h hout hrest ih =>
      cases others with
      | ok outs => cases hresult
      | error cause' =>
          cases hresult
          obtain ⟨before, failed, after, rfl, hfailed, hbefore⟩ := ih rfl
          exact ⟨ended :: before, failed, after, rfl, hfailed,
            List.forall_mem_cons.mpr ⟨⟨answer, h⟩, hbefore⟩⟩

/-- If they succeed, each of them has an answer, and something came of each. -/
theorem forall₂_of_ok {outs : List (κ × β)} (h : Finished goes ends (.ok outs) log) :
    List.Forall₂ (fun ended entry => entry.1 = ended.key ∧ ∃ answer, ended.result = .ok answer ∧
      ∃ part ⊆ log, goes ended.key answer entry.2 part) ends outs := by
  generalize hresult : (Except.ok outs : Except ε (List (κ × β))) = result at h
  induction h generalizing outs with
  | done =>
      cases hresult
      exact .nil
  | failed => cases hresult
  | @answered ended rest answer out others log log' h hout hrest ih =>
      cases others with
      | error cause => cases hresult
      | ok others =>
          cases hresult
          refine .cons ⟨rfl, answer, h, log, List.subset_append_left _ _, hout⟩ ((ih rfl).imp ?_)
          rintro ended entry ⟨hkey, answer, ha, part, hpart, hgoes⟩
          exact ⟨hkey, answer, ha, part, List.subset_append_of_subset_right _ hpart, hgoes⟩

end Finished

/-! ### Inquiries -/

/-- What is found under a key is listed under it. -/
theorem mem_of_lookup [BEq κ] [LawfulBEq κ] {outs : List (κ × β)} {key : κ} {out : β}
    (h : outs.lookup key = some out) : (key, out) ∈ outs := by
  obtain ⟨before, after, rfl, -⟩ := List.lookup_eq_some_iff.mp h
  exact List.mem_append_cons_self

namespace Inquired

variable {asks : ι → Ended κ ε α → ω → Prop} {goes : κ → α → β → List ω → Prop} {keys : List ι}
  {outs : List (κ × β)} {log : List ω}

/-- What came of the inquiry came of the answer to one of the questions. -/
theorem of_mem (h : Inquired asks goes keys (.ok outs) log) :
    ∀ entry ∈ outs, ∃ i ∈ keys, ∃ ended answer, (∃ x ∈ log, asks i ended x) ∧
      entry.1 = ended.key ∧ ended.result = .ok answer ∧
        ∃ part ⊆ log, goes entry.1 answer entry.2 part := by
  obtain ⟨ends, asked, gone, hstarted, hfinished, rfl⟩ := h.course
  intro entry he
  obtain ⟨ended, hended, hkey, answer, ha, part, hpart, hgoes⟩ :=
    exists_mem_left hfinished.forall₂_of_ok he
  obtain ⟨i, hi, x, hx, hasks⟩ := hstarted.exists_asked ended (Ended.mem_inTime.mp hended)
  exact ⟨i, hi, ended, answer, ⟨x, List.mem_append_left _ hx, hasks⟩, hkey, ha, part,
    List.subset_append_of_subset_right _ hpart, hkey ▸ hgoes⟩

/-- Something came of each of the questions. -/
theorem exists_mem (h : Inquired asks goes keys (.ok outs) log) :
    ∀ i ∈ keys, ∃ ended x, asks i ended x ∧ ∃ out, (ended.key, out) ∈ outs := by
  obtain ⟨ends, asked, gone, hstarted, hfinished, rfl⟩ := h.course
  have hall := hfinished.forall₂_of_ok
  have hok : ∀ ended ∈ ends, ∃ answer, ended.result = .ok answer := by
    intro ended he
    obtain ⟨entry, -, -, answer, ha, -⟩ := exists_mem_right hall (Ended.mem_inTime.mpr he)
    exact ⟨answer, ha⟩
  intro i hi
  obtain ⟨ended, he, x, -, hasks⟩ := hstarted.all_of_ok hok i hi
  obtain ⟨entry, hentry, hkey, -⟩ := exists_mem_right hall (Ended.mem_inTime.mpr he)
  exact ⟨ended, x, hasks, entry.2, hkey ▸ hentry⟩

/-- If the inquiry fails, one of the questions does, and with this cause. -/
theorem exists_failed {cause : ε} (h : Inquired asks goes keys (.error cause) log) :
    ∃ i ∈ keys, ∃ ended x, asks i ended x ∧ ended.result = .error cause := by
  obtain ⟨ends, asked, gone, hstarted, hfinished, rfl⟩ := h.course
  obtain ⟨before, ended, after, htime, hended, -⟩ := hfinished.failed_of_error
  have he : ended ∈ Ended.inTime ends := htime ▸ List.mem_append_cons_self
  obtain ⟨i, hi, x, -, hasks⟩ := hstarted.exists_asked ended (Ended.mem_inTime.mp he)
  exact ⟨i, hi, ended, x, hasks, hended⟩

end Inquired

/-! ### One key for each question -/

namespace Inquired

variable {asks : κ → Ended κ ε α → ω → Prop} {goes : κ → α → β → List ω → Prop} {keys : List κ}
  {outs : List (κ × β)} {log : List ω}

/-- What stands under a key came of the answer to the question for it. -/
theorem asked_of_mem (h : Inquired asks goes keys (.ok outs) log)
    (hkey : ∀ key ended x, asks key ended x → ended.key = key) :
    ∀ entry ∈ outs, entry.1 ∈ keys ∧ ∃ ended answer, (∃ x ∈ log, asks entry.1 ended x) ∧
      ended.result = .ok answer ∧ ∃ part ⊆ log, goes entry.1 answer entry.2 part := by
  intro entry he
  obtain ⟨key, hk, ended, answer, ⟨x, hx, hasks⟩, hentry, ha, hgoes⟩ := h.of_mem entry he
  obtain rfl : entry.1 = key := hentry.trans (hkey _ _ _ hasks)
  exact ⟨hk, ended, answer, ⟨x, hx, hasks⟩, ha, hgoes⟩

/-- **Under each key** that was asked for stands what came of the answer. -/
theorem lookup_of_ok [BEq κ] [LawfulBEq κ] (h : Inquired asks goes keys (.ok outs) log)
    (hkey : ∀ key ended x, asks key ended x → ended.key = key) {key : κ} (hk : key ∈ keys) :
    ∃ out, outs.lookup key = some out ∧ ∃ ended answer, (∃ x ∈ log, asks key ended x) ∧
      ended.result = .ok answer ∧ ∃ part ⊆ log, goes key answer out part := by
  obtain ⟨ended, x, hasks, out, hout⟩ := h.exists_mem key hk
  rw [hkey _ _ _ hasks] at hout
  have hsome : (outs.lookup key).isSome = true :=
    List.lookup_isSome_iff.mpr ⟨_, hout, beq_self_eq_true key⟩
  obtain ⟨out', hout'⟩ := Option.isSome_iff_exists.mp hsome
  exact ⟨out', hout', (h.asked_of_mem hkey _ (mem_of_lookup hout')).2⟩

end Inquired

/-! ### One answer for each question -/

/-- The question for a key leaves its answer in the log.  It ends when the answer comes, or at the
deadline, with what is made of the answer. -/
def AskedFor {γ : Type} (entry : κ → Reply γ → ω) (deadline : Nat)
    (result : κ → Reply γ → Except ε α) (key : κ) (ended : Ended κ ε α) (x : ω) : Prop :=
  ∃ reply, x = entry key reply ∧ ended = ⟨reply.endsAfter deadline, key, result key reply⟩

section AskedFor

variable {γ : Type} {entry : κ → Reply γ → ω} {deadline : Nat}
  {result : κ → Reply γ → Except ε α} {goes : κ → α → β → List ω → Prop} {keys : List κ}
  {log : List ω}

theorem AskedFor.key_eq {key : κ} {ended : Ended κ ε α} {x : ω}
    (h : AskedFor entry deadline result key ended x) : ended.key = key := by
  obtain ⟨reply, -, rfl⟩ := h
  rfl

end AskedFor

end AccessWindows
