import AccessWindows.Proofs.Inquiry

/-!
# Inquiries — what their programs yield

Whatever a program for an inquiry may yield, in a monad of whatever effects, is what an inquiry may
come to (`Yields.inquired`).  Nothing else is used of a monad than that a value yields itself, and
that a program in two steps yields what its second step does on something that its first one does.

With fixed answers an inquiry succeeds exactly when each question has an answer
(`exists_askAll_iff`), and depends on nothing but the questions for its keys (`askAll_congr`).
-/

namespace AccessWindows

variable {ι κ ε α β : Type}

/-! ### What programs yield -/

/-- What the programs of a monad may yield, whatever else they do: a value yields itself, and a
program in two steps what its second step may yield on something that its first may yield. -/
structure Yields (m : Type → Type) [Monad m] where
  may : {α : Type} → m α → α → Prop
  of_pure : {α : Type} → {a b : α} → may (pure a) b → b = a
  of_bind : {α β : Type} → {x : m α} → {f : α → m β} → {b : β} → may (x >>= f) b →
    ∃ a, may x a ∧ may (f a) b

/-- A program without effects yields its result. -/
def Yields.fixed : Yields Id where
  may x a := x.run = a
  of_pure h := h.symm
  of_bind {_ _ x _ _} h := ⟨x.run, rfl, h⟩

/-- A program with a state may yield its result from any state. -/
def Yields.stateful (σ : Type) : Yields (StateM σ) where
  may x a := ∃ state, (x.run state).1 = a
  of_pure {_ _ _} h := h.elim fun _ h => h.symm
  of_bind {_ _ x _ _} h := h.elim fun state h =>
    ⟨(x.run state).1, ⟨state, rfl⟩, (x.run state).2, h⟩

section yields

variable {m : Type → Type} [Monad m]

/-- Questions are started with what they may yield; nothing is written down. -/
theorem Yields.started (y : Yields m) {ask : ι → m (Ended κ ε α)} {keys : List ι}
    {ends : List (Ended κ ε α)} (h : y.may (startAll ask keys) ends) :
    ∃ log, Started (fun i ended (_ : Unit) => y.may (ask i) ended) keys ends log := by
  induction keys generalizing ends with
  | nil =>
      obtain rfl := y.of_pure h
      exact ⟨[], .done⟩
  | cons i rest ih =>
      obtain ⟨ended, hended, h⟩ := y.of_bind h
      split at h
      next hfails =>
          obtain rfl := y.of_pure h
          exact ⟨[()], .failed hended hfails⟩
      next =>
          obtain ⟨others, hothers, h⟩ := y.of_bind h
          obtain rfl := y.of_pure h
          obtain ⟨log, hstarted⟩ := ih hothers
          exact ⟨() :: log, .started hended hstarted⟩

/-- What is made of answers is gone through with what it may yield. -/
theorem Yields.finished (y : Yields m) {next : κ → α → m β} {ends : List (Ended κ ε α)}
    {result : Except ε (List (κ × β))} (h : y.may (finishAll next ends) result) :
    Finished (fun key answer out (_ : List Unit) => y.may (next key answer) out) ends result
      [] := by
  induction ends generalizing result with
  | nil =>
      obtain rfl := y.of_pure h
      exact .done
  | cons ended rest ih =>
      rw [finishAll] at h
      cases hresult : ended.result with
      | error cause =>
          rw [hresult] at h
          obtain rfl := y.of_pure h
          exact .failed hresult
      | ok answer =>
          rw [hresult] at h
          obtain ⟨out, hout, h⟩ := y.of_bind h
          obtain ⟨others, hothers, h⟩ := y.of_bind h
          obtain rfl := y.of_pure h
          change Finished _ (ended :: rest) _ ([] ++ [])
          exact .answered hresult hout (ih hothers)

/-- **Inquiries** come to what their programs may yield. -/
theorem Yields.inquired (y : Yields m) {ask : ι → m (Ended κ ε α)} {next : κ → α → m β}
    {keys : List ι} {result : Except ε (List (κ × β))} (h : y.may (askAll ask next keys) result) :
    ∃ log, Inquired (fun i ended (_ : Unit) => y.may (ask i) ended)
      (fun key answer out _ => y.may (next key answer) out) keys result log := by
  obtain ⟨ends, hends, h⟩ := y.of_bind h
  obtain ⟨log, hstarted⟩ := y.started hends
  exact ⟨_, ⟨ends, log, [], hstarted, y.finished h, rfl⟩⟩

/-! ### What programs depend on -/

/-- What is started depends on the questions for these keys. -/
theorem startAll_congr {ask ask' : ι → m (Ended κ ε α)} {keys : List ι}
    (h : ∀ i ∈ keys, ask i = ask' i) : startAll ask keys = startAll ask' keys := by
  induction keys with
  | nil => rfl
  | cons i rest ih =>
      obtain ⟨hi, h⟩ := List.forall_mem_cons.mp h
      simp only [startAll, hi, ih h]

/-- What is gone through depends on what is made of these answers. -/
theorem finishAll_congr {next next' : κ → α → m β} {ends : List (Ended κ ε α)}
    (h : ∀ ended ∈ ends, ∀ answer, ended.result = .ok answer →
      next ended.key answer = next' ended.key answer) :
    finishAll next ends = finishAll next' ends := by
  induction ends with
  | nil => rfl
  | cons ended rest ih =>
      obtain ⟨hended, h⟩ := List.forall_mem_cons.mp h
      rw [finishAll, finishAll, ih h]
      cases hresult : ended.result with
      | error cause => rfl
      | ok answer => simp only [hended answer hresult]

end yields

/-! ### Fixed answers -/

section fixed

variable {ask ask' : κ → Id (Ended κ ε α)} {next next' : κ → α → Id β} {keys : List κ}
  {outs : List (κ × β)}

/-- If no question fails, all are started. -/
theorem run_startAll {ask : ι → Id (Ended κ ε α)} {keys : List ι}
    (hok : ∀ i ∈ keys, ∃ answer, (ask i).run.result = .ok answer) :
    (startAll ask keys).run = keys.map fun i => (ask i).run := by
  induction keys with
  | nil => rfl
  | cons i rest ih =>
      obtain ⟨⟨answer, ha⟩, hok⟩ := List.forall_mem_cons.mp hok
      rw [startAll, Id.run_bind, Ended.not_failsAtOnce_of_ok ha, List.map_cons, ← ih hok]
      rfl

/-- What stands under a key is what is made of the answer for it. -/
theorem of_mem_askAll (hkey : ∀ key, (ask key).run.key = key)
    (h : (askAll ask next keys).run = .ok outs) :
    ∀ entry ∈ outs, entry.1 ∈ keys ∧ ∃ answer, (ask entry.1).run.result = .ok answer ∧
      (next entry.1 answer).run = entry.2 := by
  obtain ⟨log, hinquired⟩ := Yields.fixed.inquired h
  intro entry he
  obtain ⟨hk, _, answer, ⟨_, -, rfl⟩, ha, _, -, hout⟩ :=
    hinquired.asked_of_mem (fun key _ _ hasks => hasks ▸ hkey key) entry he
  exact ⟨hk, answer, ha, hout⟩

/-- Under each key that was asked for stands what is made of the answer for it. -/
theorem lookup_askAll [BEq κ] [LawfulBEq κ] (hkey : ∀ key, (ask key).run.key = key)
    (h : (askAll ask next keys).run = .ok outs) {key : κ} (hk : key ∈ keys) :
    ∃ answer, (ask key).run.result = .ok answer ∧
      outs.lookup key = some (next key answer).run := by
  obtain ⟨log, hinquired⟩ := Yields.fixed.inquired h
  obtain ⟨out, hlookup, _, answer, ⟨_, -, rfl⟩, ha, _, -, rfl⟩ :=
    hinquired.lookup_of_ok (fun key _ _ hasks => hasks ▸ hkey key) hk
  exact ⟨answer, ha, hlookup⟩

/-- An inquiry succeeds if each of its questions has an answer. -/
theorem exists_askAll_iff (hkey : ∀ key, (ask key).run.key = key) :
    (∃ outs, (askAll ask next keys).run = .ok outs) ↔
      ∀ key ∈ keys, ∃ answer, (ask key).run.result = .ok answer := by
  constructor
  · rintro ⟨outs, h⟩ key hk
    obtain ⟨log, hinquired⟩ := Yields.fixed.inquired h
    obtain ⟨ended, x, rfl, out, hout⟩ := hinquired.exists_mem key hk
    obtain ⟨-, answer, ha, -⟩ := of_mem_askAll hkey h _ hout
    rw [hkey key] at ha
    exact ⟨answer, ha⟩
  · intro hall
    cases hresult : (askAll ask next keys).run with
    | ok outs => exact ⟨outs, rfl⟩
    | error cause =>
        obtain ⟨log, hinquired⟩ := Yields.fixed.inquired hresult
        obtain ⟨key, hk, _, -, rfl, hfails⟩ := hinquired.exists_failed
        obtain ⟨answer, ha⟩ := hall key hk
        cases ha.symm.trans hfails

/-- An inquiry depends on the questions for its keys, and on what is made of their answers. -/
theorem askAll_congr (h : ∀ key ∈ keys, ask key = ask' key) (hkey : ∀ key, (ask key).run.key = key)
    (hnext : ∀ key ∈ keys, ∀ answer, (ask key).run.result = .ok answer →
      next key answer = next' key answer) :
    askAll ask next keys = askAll ask' next' keys := by
  have hyields : Yields.fixed.may (startAll ask keys) (startAll ask keys).run := rfl
  obtain ⟨log, hstarted⟩ := Yields.fixed.started hyields
  have hfinish : finishAll next (Ended.inTime (startAll ask keys).run) =
      finishAll next' (Ended.inTime (startAll ask keys).run) := by
    refine finishAll_congr fun ended he answer ha => ?_
    obtain ⟨key, hk, _, -, rfl⟩ := hstarted.exists_asked ended (Ended.mem_inTime.mp he)
    rw [hkey key]
    exact hnext key hk answer ha
  rw [askAll, askAll, ← startAll_congr h]
  exact hfinish

end fixed

end AccessWindows
