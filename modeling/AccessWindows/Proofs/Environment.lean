import AccessWindows.Proofs.Numerals
import AccessWindows.Proofs.Settings

/-!
# Environments — how far they are applied

A variable whose name begins as overrides do must name a setting, in whatever letter case, and its
text must denote a value of that setting; otherwise it offends (`Offends`).  An environment is
applied up to the first variable that offends.  That variable changes nothing and is what the error
is about, and the variables in front of it stay applied (`override_applies_front`).  Within what is
applied the last variable for a setting gives it its value (`Holds`).

All of this is said of names and texts as they stand in the environment, and not of what reading
makes of them (`names_iff_isFor`, `parse?_eq_some_iff`).
-/

namespace AccessWindows

open Decimal

/-! ### Names and texts -/

namespace Setting

variable {f : Setting} {value : String}

/-- The text is the numeral of a number, behind a plus sign or not, white space around it aside. -/
def IsCount (value : String) (n : UInt64) : Prop :=
  ∃ width, Blank.trim value.toList = padded width n.toNat ∨
    Blank.trim value.toList = '+' :: padded width n.toNat

/-- The text is the word for a truth value, white space around it aside. -/
def IsWord (value : String) (b : Bool) : Prop :=
  Blank.trim value.toList = (if b then "true" else "false").toList

/-- The value that a text denotes for a setting. -/
def Denotes : (f : Setting) → String → f.Kind → Prop
  | .discoveryTimeout => IsCount
  | .lookupTimeout => IsCount
  | .maxConcurrentChains => IsCount
  | .acceptExpired => IsWord

theorem number?_eq_some_iff {n : UInt64} : Settings.number? value = some n ↔ IsCount value n := by
  rw [IsCount, ← unsigned?_eq_some_iff, Settings.number?]
  constructor
  · intro h
    obtain ⟨m, hm, h⟩ := Option.bind_eq_some_iff.mp h
    obtain ⟨hsize, he⟩ := Option.ite_none_right_eq_some.mp h
    rw [← Option.some.inj he, hm, Nat.toUInt64, UInt64.toNat_ofNat_of_lt' hsize]
  · intro h
    rw [h, Option.bind_eq_bind, Option.bind_some, if_pos n.toNat_lt_size]
    exact congrArg some UInt64.ofNat_toNat

theorem truth?_eq_some_iff {b : Bool} : Settings.truth? value = some b ↔ IsWord value b := by
  have htrue : "true".toList = ['t', 'r', 'u', 'e'] := by simp
  have hfalse : "false".toList = ['f', 'a', 'l', 's', 'e'] := by simp
  rw [Settings.truth?, IsWord]
  cases b with
  | true => rw [if_pos rfl, htrue]; grind
  | false => rw [if_neg Bool.false_ne_true, hfalse]; grind

theorem parse?_eq_some_iff {x : f.Kind} : f.parse? value = some x ↔ f.Denotes value x := by
  cases f with
  | discoveryTimeout => exact number?_eq_some_iff
  | lookupTimeout => exact number?_eq_some_iff
  | maxConcurrentChains => exact number?_eq_some_iff
  | acceptExpired => exact truth?_eq_some_iff

end Setting

namespace Settings

variable {s t : Settings} {f g : Setting} {e : Variable} {environment before rest : List Variable}
  {cause : SettingsError}

/-- The name begins as those of overrides do. -/
def IsOverride (e : Variable) : Prop := variableStart <+: e.1.toList

instance (e : Variable) : Decidable (IsOverride e) := inferInstanceAs (Decidable (_ <+: _))

/-- The name is that of the setting, behind the common beginning and whatever the letter case. -/
def Names (f : Setting) (e : Variable) : Prop :=
  ∃ ending, e.1.toList = variableStart ++ ending ∧ ending.map Char.toLower = f.name.toList

theorem overrideKey?_eq_some_iff {name key : String} :
    overrideKey? name = some key ↔ ∃ ending, name.toList = variableStart ++ ending ∧
      key = String.ofList (ending.map Char.toLower) := by
  rw [overrideKey?]
  constructor
  · intro h
    obtain ⟨htake, he⟩ := Option.ite_none_right_eq_some.mp h
    refine ⟨name.toList.drop variableStart.length, ?_, (Option.some.inj he).symm⟩
    conv_lhs => rw [← List.take_append_drop variableStart.length name.toList, htake]
  · rintro ⟨ending, hname, rfl⟩
    rw [hname, List.take_left, List.drop_left, if_pos rfl]

theorem names_iff_isFor : Names f e ↔ IsFor f e := by
  rw [IsFor, overrideKey?_eq_some_iff]
  refine exists_congr fun ending => and_congr_right fun _ => ?_
  rw [← String.toList_inj, String.toList_ofList, eq_comm]

theorem isOverride_iff : IsOverride e ↔ overrideKey? e.1 ≠ none := by
  rw [Option.ne_none_iff_exists']
  simp only [overrideKey?_eq_some_iff]
  constructor
  · rintro ⟨ending, h⟩
    exact ⟨_, ending, h.symm, rfl⟩
  · rintro ⟨_, ending, h, -⟩
    exact ⟨ending, h.symm⟩

/-- A variable fits just if it overrides nothing, or gives a setting that it names a value. -/
theorem fits_iff : Fits e ↔ (IsOverride e → ∃ f x, Names f e ∧ f.Denotes e.2 x) := by
  simp only [names_iff_isFor, ← Setting.parse?_eq_some_iff, isOverride_iff, IsFor, Fits]
  cases hkey : overrideKey? e.1 with
  | none => simp
  | some key => simp

/-! ### Offences -/

/-- The variable is meant to override a setting and cannot, for this reason. -/
inductive Offends : Variable → SettingsError → Prop
  | unknownKey {name value : String} {ending : List Char} :
      name.toList = variableStart ++ ending → (∀ f, ¬ Names f (name, value)) →
        Offends (name, value) (.unknownKey (String.ofList (ending.map Char.toLower)))
  | badValue {e : Variable} {f : Setting} :
      Names f e → (∀ x, ¬ f.Denotes e.2 x) → Offends e (.badValue e.2 f)

theorem exists_offends (h : ¬ Fits e) : ∃ cause, Offends e cause := by
  rw [fits_iff] at h
  push Not at h
  obtain ⟨⟨ending, hname⟩, h⟩ := h
  by_cases hf : ∃ f, Names f e
  · obtain ⟨f, hf⟩ := hf
    exact ⟨_, .badValue hf fun x => h f x hf⟩
  · exact ⟨_, .unknownKey hname.symm (not_exists.mp hf)⟩

/-- A variable that offends changes nothing, and nothing behind it is looked at. -/
theorem override_cons_of_offends (h : Offends e cause) (rest : List Variable) :
    s.override (e :: rest) = (s, .error cause) := by
  cases h with
  | @unknownKey name value ending hname hnone =>
      have hkey := overrideKey?_eq_some_iff.mpr ⟨ending, hname, rfl⟩
      have hfind : Setting.ofName? (String.ofList (ending.map Char.toLower)) = none := by
        refine Option.eq_none_iff_forall_not_mem.mpr fun f hf => hnone f ?_
        rw [names_iff_isFor, IsFor, hkey, Setting.ofName?_eq_some_iff.mp hf]
      simp only [override, hkey, set, hfind]
  | @badValue e f hnames hvalue =>
      have hkey : overrideKey? e.1 = some f.name := names_iff_isFor.mp hnames
      have hnone : f.parse? e.2 = none :=
        Option.eq_none_iff_forall_not_mem.mpr fun x hx =>
          hvalue x (Setting.parse?_eq_some_iff.mp hx)
      obtain ⟨name, value⟩ := e
      simp only [override, hkey, set, f.ofName?_name, set?_eq, hnone, Option.map_none]

/-! ### What is applied -/

theorem override_append (h : ∀ e ∈ before, Fits e) (rest : List Variable) :
    s.override (before ++ rest) = (s.override before).1.override rest := by
  induction before generalizing s with
  | nil => rfl
  | cons e before ih =>
      obtain ⟨he, hbefore⟩ := List.forall_mem_cons.mp h
      rw [List.cons_append]
      obtain ⟨-, hstep⟩ | ⟨f, x, -, -, hstep⟩ | ⟨hnot, -⟩ := s.override_step e
      · rw [hstep, hstep, ih hbefore]
      · rw [hstep, hstep, ih hbefore]
      · exact absurd he hnot

/-- The value of a setting in an environment that is applied: that of the last variable that names
it, or what it was. -/
inductive Holds (s : Settings) (environment : List Variable) (f : Setting) : f.Kind → Prop
  | last {before : List Variable} {e : Variable} {after : List Variable} {x : f.Kind} :
      environment = before ++ e :: after → Names f e → f.Denotes e.2 x →
        (∀ e' ∈ after, ¬ Names f e') → Holds s environment f x
  | kept : (∀ e ∈ environment, ¬ Names f e) → Holds s environment f (s.get f)

theorem Holds.cons {x : f.Kind} (h : Holds t rest f x) (e : Variable)
    (hkept : Names f e → f.Denotes e.2 (t.get f)) (hother : ¬ Names f e → t.get f = s.get f) :
    Holds s (e :: rest) f x := by
  obtain ⟨rfl, hnames, hx, hafter⟩ | hnone := h
  · exact .last (List.cons_append ..).symm hnames hx hafter
  · by_cases he : Names f e
    · exact .last (List.nil_append _).symm he (hkept he) hnone
    · rw [hother he]
      exact .kept (List.forall_mem_cons.mpr ⟨he, hnone⟩)

theorem holds_override (h : ∀ e ∈ environment, Fits e) (f : Setting) :
    Holds s environment f ((s.override environment).1.get f) := by
  induction environment generalizing s with
  | nil => exact .kept fun _ he => by cases he
  | cons e rest ih =>
      obtain ⟨he, hrest⟩ := List.forall_mem_cons.mp h
      obtain ⟨hnone, hstep⟩ | ⟨g, x, hg, hx, hstep⟩ | ⟨hnot, -⟩ := s.override_step e
      · rw [hstep]
        refine (ih hrest).cons e (fun hnames => ?_) fun _ => rfl
        have hkey := names_iff_isFor.mp hnames
        rw [IsFor, hnone] at hkey
        cases hkey
      · rw [hstep]
        refine (ih hrest).cons e (fun hnames => ?_) fun hnames => ?_
        · obtain rfl := hg.unique (names_iff_isFor.mp hnames)
          rw [get_put]
          exact Setting.parse?_eq_some_iff.mp hx
        · refine get_put_of_ne s x ?_
          rintro rfl
          exact hnames (names_iff_isFor.mpr hg)
      · exact absurd he hnot

/-- Variables that override nothing might as well not be there. -/
theorem override_filter (s : Settings) (environment : List Variable) :
    s.override (environment.filter IsOverride) = s.override environment := by
  induction environment generalizing s with
  | nil => rfl
  | cons e rest ih =>
      rw [List.filter_cons]
      obtain ⟨hnone, hstep⟩ | ⟨f, x, hf, -, hstep⟩ | ⟨-, key, _, hkey, -, hstep⟩ :=
        s.override_step e
      · rw [hstep, if_neg (by simp [isOverride_iff, hnone]), ih]
      · have hkey : overrideKey? e.1 = some f.name := hf
        rw [if_pos (by simp [isOverride_iff, hkey]), hstep, hstep, ih]
      · rw [if_pos (by simp [isOverride_iff, hkey]), hstep, hstep]

theorem override_of_fits (h : ∀ e ∈ environment, Fits e) :
    ∃ t, s.override environment = (t, .ok ()) ∧ ∀ f, Holds s environment f (t.get f) :=
  ⟨_, Prod.ext rfl (override_eq_ok_iff.mpr h), fun f => holds_override h f⟩

/-- An environment with a variable that does not fit has a first one. -/
theorem exists_first_offence (h : ¬ ∀ e ∈ environment, Fits e) :
    ∃ before e after cause, environment = before ++ e :: after ∧ (∀ e' ∈ before, Fits e') ∧
      Offends e cause := by
  classical
  push Not at h
  obtain ⟨e, he, hnot⟩ := h
  have hsome : (environment.find? fun e => ¬ Fits e).isSome :=
    List.find?_isSome.mpr ⟨e, he, decide_eq_true hnot⟩
  obtain ⟨first, hfirst⟩ := Option.isSome_iff_exists.mp hsome
  obtain ⟨hoffends, before, after, hsplit, hbefore⟩ := List.find?_eq_some_iff_append.mp hfirst
  obtain ⟨cause, hcause⟩ := exists_offends (of_decide_eq_true hoffends)
  exact ⟨before, first, after, cause, hsplit, fun e' he' => by simpa using hbefore e' he', hcause⟩

/-- **How far an environment is applied.**  If each variable that is meant to override names a
setting and denotes a value of it, all of the environment is applied: each setting has the value of
the last variable that names it, or its own.  Otherwise there is a first variable that offends.  The
error is the one about it, and the settings are those that the variables in front of it make of
them.  Variables with other names have no effect, wherever they stand. -/
theorem override_applies_front (s : Settings) (environment : List Variable) :
    ((∀ e ∈ environment, IsOverride e → ∃ f x, Names f e ∧ f.Denotes e.2 x) →
      ∃ t, s.override environment = (t, .ok ()) ∧ ∀ f, Holds s environment f (t.get f)) ∧
    ((¬ ∀ e ∈ environment, IsOverride e → ∃ f x, Names f e ∧ f.Denotes e.2 x) →
      ∃ before e after cause t, environment = before ++ e :: after ∧
        (∀ e' ∈ before, IsOverride e' → ∃ f x, Names f e' ∧ f.Denotes e'.2 x) ∧ Offends e cause ∧
        s.override before = (t, .ok ()) ∧ s.override environment = (t, .error cause) ∧
        ∀ f, Holds s before f (t.get f)) ∧
    s.override (environment.filter IsOverride) = s.override environment := by
  simp only [← fits_iff]
  refine ⟨override_of_fits, fun h => ?_, s.override_filter environment⟩
  obtain ⟨before, e, after, cause, hsplit, hbefore, hcause⟩ := exists_first_offence h
  obtain ⟨t, ht, hholds⟩ := override_of_fits (s := s) hbefore
  -- the run over the whole is the run over the front, and one step that changes nothing
  refine ⟨before, e, after, cause, t, hsplit, hbefore, hcause, ht, ?_, hholds⟩
  rw [hsplit, override_append hbefore, ht, override_cons_of_offends hcause]

/-- Two deadlines, of which the later stands, a word that is no truth value, and what is behind
it. -/
def spoiled : List Variable :=
  [("WARDEN_ACCESS_LOOKUP_TIMEOUT_MS", "1"), ("HOME", "/root"),
    ("WARDEN_ACCESS_lookup_timeout_MS", " +007 "), ("WARDEN_ACCESS_Accept_Expired", "maybe"),
    ("WARDEN_ACCESS_MAX_CONCURRENT_CHAINS", "4")]

/-- What stands in front of the word is applied, and what is behind it is not. -/
theorem override_spoiled :
    (¬ ∀ e ∈ spoiled, IsOverride e → ∃ f x, Names f e ∧ f.Denotes e.2 x) ∧
      ∃ before e after cause t, spoiled = before ++ e :: after ∧ Offends e cause ∧
        ({} : Settings).override spoiled = (t, .error cause) ∧
        t = { lookupTimeout := 7 } ∧ cause = .badValue "maybe" .acceptExpired := by
  have hrun : ({} : Settings).override spoiled =
      ({ lookupTimeout := 7 }, .error (.badValue "maybe" .acceptExpired)) := by decide +kernel
  have hnot : ¬ ∀ e ∈ spoiled, IsOverride e → ∃ f x, Names f e ∧ f.Denotes e.2 x := by
    simp only [← fits_iff, ← override_eq_ok_iff (s := {}), hrun]
    exact fun h => by cases h
  obtain ⟨before, e, after, cause, t, hsplit, -, hcause, -, hresult, -⟩ :=
    (override_applies_front {} spoiled).2.1 hnot
  obtain ⟨ht, he⟩ := Prod.mk.inj (hresult.symm.trans hrun)
  exact ⟨hnot, before, e, after, cause, t, hsplit, hcause, hresult, ht, Except.error.inj he⟩

end Settings

end AccessWindows
