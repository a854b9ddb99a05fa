import AccessWindows.CommandLine.Session
import AccessWindows.Proofs.Files
import AccessWindows.Proofs.Settings
import AccessWindows.Proofs.Steps

/-!
# Configurations — which value prevails

A setting has the value that the environment gives it, or else the one that stands in the file, or
else the usual one (`Prevails`).  A configuration is loaded just if the file can be used, every
variable of the environment fits, and no number that prevails is zero (`exists_load_eq_ok_iff`): the
check is made last, of what prevails.  So a variable makes good or bad what the file says about its
setting, and nothing else (`loads_cons_iff`).

A fixture that the file names is looked for from the directory of the file, unless its path starts
at the root.
-/

namespace AccessWindows

/-- Settings that passed their check make an engine. -/
theorem Engine.exists_create_eq_ok {m : Type → Type} (collaborators : Collaborators m)
    {s : Settings} (h : s.check = .ok s) : ∃ e, create collaborators s = .ok e := by
  rw [create]
  split
  next hcause =>
      rw [h] at hcause
      cases hcause
  next => exact ⟨_, rfl⟩

namespace CommandLine

open Document Settings

namespace Configuration

variable {path : String} {content : FileText} {environment : List Variable} {c : Configuration}
  {f : Setting}

/-! ### What stands in the file -/

/-- The fields of the document that a file holds. -/
def fileFields? (content : FileText) : Option Fields := do
  (← Toml.read? (← content.toOption)).fields? .toml ["access", "fixture"] .refused

/-- The value that stands in the file for a setting. -/
def written? (content : FileText) (f : Setting) : Option Value := do
  let access ← (← fileFields? content).get? "access"
  (← access.fields? .toml (Setting.all.map Setting.name) .refused).get? f.name

/-- The fixture that the file names. -/
def named? (content : FileText) : Option String := do
  (← (← fileFields? content).get? "fixture").text?

/-- The file is seen to be there, and its text cannot be had or is no configuration. -/
def Unusable (content : FileText) : Prop :=
  (∃ fault, content = .error fault ∧ fault.isAbsence = false) ∨
    ∃ text, content = .ok text ∧ (Toml.read? text).bind (ofValue? .toml) = none

theorem exists_ofFile_eq_ok_iff : (∃ c, ofFile path content = .ok c) ↔ ¬ Unusable content := by
  cases content with
  | error fault => cases habsent : fault.isAbsence <;> simp [ofFile, Unusable, habsent]
  | ok text =>
      simp only [ofFile, Unusable, reduceCtorEq, false_and, exists_false, false_or, Except.ok.injEq,
        exists_eq_left']
      cases (Toml.read? text).bind (ofValue? .toml) <;> simp

/-- What a configuration owes to the file that it was read from. -/
structure OfFile (content : FileText) (path : String) (c : Configuration) : Prop where
  given : ∀ f v, written? content f = some v → f.ofValue? v = some (c.access.get f)
  usual : ∀ f, written? content f = none → c.access.get f = ({} : Settings).get f
  fixture : c.fixture = (named? content).map (Path.join ((Path.parent? path).getD ""))

theorem OfFile.of_none (h : fileFields? content = none) : OfFile content path {} where
  given f v hv := by simp [written?, h] at hv
  usual f _ := rfl
  fixture := by simp [named?, h]

/-- The settings in the fields of a document. -/
theorem get_of_optional {fs : Fields} {access : Settings}
    (h : fs.optional "access" {} (Settings.ofValue? .toml) = some access) (f : Setting) :
    let entry := (fs.get? "access").bind fun v =>
      (v.fields? .toml (Setting.all.map Setting.name) .refused).bind (·.get? f.name)
    (∀ v, entry = some v → f.ofValue? v = some (access.get f)) ∧
      (entry = none → access.get f = ({} : Settings).get f) := by
  rw [Fields.optional] at h
  cases hv : fs.get? "access" with
  | none =>
      simp only [hv, Option.some.injEq] at h
      subst h
      simp
  | some v =>
      simp only [hv] at h
      obtain ⟨gs, hgs, hget⟩ := exists_fields_of_ofValue? h
      have hf := hget f
      rw [Fields.optional] at hf
      simp only [Option.bind_some, hgs]
      cases hentry : gs.get? f.name with
      | none =>
          simp only [hentry, Option.some.injEq] at hf
          simp [hf]
      | some entry =>
          simp only [hentry] at hf
          simp [hf]

theorem eq_text?_of_text? {v : Value} {fixture : Option String} (h : text? v = some fixture) :
    fixture = v.text? := by
  cases v with
  | null => cases h; rfl
  | text s => cases h; rfl
  | bytes b =>
      obtain ⟨s, hs, rfl⟩ := Option.map_eq_some_iff.mp h
      exact hs.symm
  | _ => cases h

/-- The fixture in the fields of a document. -/
theorem fixture_of_optional {fs : Fields} {fixture : Option String}
    (h : fs.optional "fixture" none text? = some fixture) :
    fixture = (fs.get? "fixture").bind Value.text? := by
  rw [Fields.optional] at h
  cases hv : fs.get? "fixture" with
  | none =>
      simp only [hv, Option.some.injEq] at h
      exact h.symm
  | some v =>
      simp only [hv] at h
      exact eq_text?_of_text? h

theorem OfFile.of_ok (h : ofFile path content = .ok c) : OfFile content path c := by
  cases content with
  | error fault =>
      have hnone : fileFields? (.error fault) = none := rfl
      rw [ofFile] at h
      split at h
      · cases h
        exact .of_none hnone
      · cases h
  | ok text =>
      simp only [ofFile] at h
      split at h
      next c' hc' =>
          cases h
          obtain ⟨doc, hdoc, hc'⟩ := Option.bind_eq_some_iff.mp hc'
          simp only [ofValue?, Option.bind_eq_bind, Option.bind_eq_some_iff] at hc'
          obtain ⟨fs, hfs, access, haccess, fixture, hfixture, hc'⟩ := hc'
          cases hc'
          have hfields : fileFields? (.ok text) = some fs := by
            simp [fileFields?, Except.toOption, hdoc, hfs]
          have hget := get_of_optional haccess
          refine ⟨fun f v hv => (hget f).1 v ?_, fun f hv => (hget f).2 ?_, ?_⟩
          · simpa [written?, hfields] using hv
          · simpa [written?, hfields] using hv
          · simp [seenFrom, named?, hfields, fixture_of_optional hfixture]
      next => cases h

/-! ### What prevails -/

/-- The value that a setting should have: that of a variable meant for it; if there is none, the one
that stands in the file; if there is none either, the usual one. -/
inductive Prevails (content : FileText) (environment : List Variable) (f : Setting) : f.Kind → Prop
    where
  | environment {e : Variable} {x : f.Kind} (he : e ∈ environment) (hfor : IsFor f e)
      (hx : f.parse? e.2 = some x) : Prevails content environment f x
  | file {v : Value} {x : f.Kind} (hnone : ∀ e ∈ environment, ¬ IsFor f e)
      (hv : written? content f = some v) (hx : f.ofValue? v = some x) :
      Prevails content environment f x
  | usual (hnone : ∀ e ∈ environment, ¬ IsFor f e) (hv : written? content f = none) :
      Prevails content environment f (({} : Settings).get f)

/-- A variable for another setting changes nothing. -/
theorem prevails_cons_of_ne {g : Setting} {e : Variable} {y : g.Kind} (hfor : IsFor f e)
    (hg : g ≠ f) : Prevails content (e :: environment) g y ↔ Prevails content environment g y := by
  have hnot : ¬ IsFor g e := fun h => hg (h.unique hfor)
  have hnone : (∀ e' ∈ e :: environment, ¬ IsFor g e') ↔ ∀ e' ∈ environment, ¬ IsFor g e' := by
    rw [List.forall_mem_cons, and_iff_right hnot]
  constructor
  · intro h
    cases h with
    | environment he hfor' hy =>
        rcases List.mem_cons.mp he with rfl | he
        · exact absurd hfor' hnot
        · exact .environment he hfor' hy
    | file hcons hv hy => exact .file (hnone.mp hcons) hv hy
    | usual hcons hv => exact .usual (hnone.mp hcons) hv
  · intro h
    cases h with
    | environment he hfor' hy => exact .environment (List.mem_cons_of_mem _ he) hfor' hy
    | file hrest hv hy => exact .file (hnone.mpr hrest) hv hy
    | usual hrest hv => exact .usual (hnone.mpr hrest) hv

/-- A variable that is the only one for its setting gives it its value, whatever the file says. -/
theorem prevails_cons_iff {e : Variable} {x y : f.Kind} (hkeys : (keys (e :: environment)).Nodup)
    (hfor : IsFor f e) (hx : f.parse? e.2 = some x) :
    Prevails content (e :: environment) f y ↔ y = x := by
  constructor
  · intro h
    cases h with
    | environment he hfor' hy =>
        rcases List.mem_cons.mp he with rfl | he
        · exact Option.some.inj (hy.symm.trans hx)
        · rw [keys_cons_of_some hfor, List.nodup_cons] at hkeys
          exact absurd (hfor'.mem_keys he) hkeys.1
    | file hnone => exact absurd hfor (hnone e List.mem_cons_self)
    | usual hnone => exact absurd hfor (hnone e List.mem_cons_self)
  · rintro rfl
    exact .environment List.mem_cons_self hfor hx

/-- What prevails is what comes out of overriding what was read from the file. -/
theorem OfFile.prevails_iff (h : OfFile content path c) (hkeys : (keys environment).Nodup)
    (hfits : ∀ e ∈ environment, Fits e) {x : f.Kind} :
    Prevails content environment f x ↔ (c.access.override environment).1.get f = x := by
  rw [get_override hfits]
  constructor
  · intro hx
    cases hx with
    | environment he hfor hx =>
        -- the variables have different keys, so that there is no other value
        have hmem := mem_valuesFor.mpr ⟨_, he, hfor, hx⟩
        obtain ⟨y, hy⟩ := List.length_eq_one_iff.mp
          (Nat.le_antisymm (length_valuesFor_le hkeys f) (List.length_pos_of_mem hmem))
        rw [hy, List.mem_singleton] at hmem
        rw [hy, hmem]
        rfl
    | file hnone hv hx =>
        rw [(valuesFor_eq_nil_iff hfits).mpr hnone]
        exact Option.some.inj ((h.given f _ hv).symm.trans hx)
    | usual hnone hv =>
        rw [(valuesFor_eq_nil_iff hfits).mpr hnone]
        exact h.usual f hv
  · rintro rfl
    by_cases hnil : valuesFor f environment = []
    · have hnone := (valuesFor_eq_nil_iff hfits).mp hnil
      rw [hnil]
      cases hv : written? content f with
      | none => exact h.usual f hv ▸ .usual hnone hv
      | some v => exact .file hnone hv (h.given f v hv)
    · rw [List.getLast?_eq_some_getLast hnil]
      obtain ⟨e, he, hfor, hx⟩ := mem_valuesFor.mp (List.getLast_mem hnil)
      exact .environment he hfor hx

/-! ### Loading -/

/-- **Loading**: the file can be used, every variable fits, and no number is zero after that. -/
theorem load_eq_ok_iff :
    load path content environment = .ok c ↔
      ∃ c', ofFile path content = .ok c' ∧ (∀ e ∈ environment, Fits e) ∧
        (∀ f : Setting, ¬ f.IsZero ((c'.access.override environment).1.get f)) ∧
        { c' with access := (c'.access.override environment).1 } = c := by
  simp only [load, bind_eq_ok_iff, mapError_eq_ok_iff, withEnvironment, pure_eq_ok_iff,
    check_eq_ok_iff]
  constructor
  · rintro ⟨c', hc', ⟨⟩, hok, _, ⟨rfl, hzero⟩, rfl⟩
    exact ⟨c', hc', override_eq_ok_iff.mp hok, hzero, rfl⟩
  · rintro ⟨c', hc', hfits, hzero, rfl⟩
    exact ⟨c', hc', (), override_eq_ok_iff.mpr hfits, _, ⟨rfl, hzero⟩, rfl⟩

/-- A session may lack a fixture or a world, but not an engine over settings that are right. -/
theorem start_ne_access (h : c.access.check = .ok c.access) (fixture : String) (text : FileText)
    (cause : AccessError) : Session.start c fixture text ≠ .error (.access cause) := by
  intro hstart
  simp only [Session.start, bind_eq_error_iff, mapError_eq_error_iff, mapError_eq_ok_iff,
    Error.access.injEq, reduceCtorEq, and_false, exists_false, false_or] at hstart
  obtain ⟨_, -, world, -, ⟨_, herror, -⟩ | ⟨_, -, ⟨⟩⟩⟩ := hstart
  obtain ⟨e, hcreate⟩ := Engine.exists_create_eq_ok world.collaborators h
  rw [hcreate] at herror
  cases herror

/-- What can be relied on in a configuration that was loaded. -/
structure IsLoaded (path : String) (content : FileText) (environment : List Variable)
    (c : Configuration) : Prop where
  prevails : ∀ f, Prevails content environment f (c.access.get f)
  nonzero : c.access.discoveryTimeout ≠ 0 ∧ c.access.lookupTimeout ≠ 0 ∧
    c.access.maxConcurrentChains ≠ 0
  /-- Every engine accepts the settings. -/
  engine : ∀ {m : Type → Type} (collaborators : Collaborators m),
    ∃ e, Engine.create collaborators c.access = .ok e
  /-- So no session fails for its settings. -/
  session : ∀ fixture text cause, Session.start c fixture text ≠ .error (.access cause)
  /-- A path that starts at the root is kept. -/
  absolute : ∀ fixture, named? content = some fixture → Path.isAbsolute fixture = true →
    c.fixture = some fixture
  /-- Any other path starts from the directory of the file. -/
  relative : ∀ fixture, named? content = some fixture → Path.isAbsolute fixture = false →
    c.fixture = some (Path.join ((Path.parent? path).getD "") fixture)
  /-- The directory is what stands before the name of the file, if anything does. -/
  beside : ∀ directory name fixture, path = directory ++ "/" ++ name →
    Path.EndsInName directory → Path.IsName name → named? content = some fixture →
    Path.isAbsolute fixture = false → c.fixture = some (directory ++ "/" ++ fixture)
  here : ∀ fixture, Path.IsName path → named? content = some fixture → c.fixture = some fixture
  unnamed : named? content = none → c.fixture = none

theorem IsLoaded.of_ok (hkeys : (keys environment).Nodup)
    (h : load path content environment = .ok c) : IsLoaded path content environment c := by
  obtain ⟨c', hc', hfits, hzero, rfl⟩ := load_eq_ok_iff.mp h
  have hfile := OfFile.of_ok hc'
  have hcheck : (c'.access.override environment).1.check =
      .ok (c'.access.override environment).1 := check_eq_ok_iff.mpr ⟨rfl, hzero⟩
  have hnamed : ∀ {fixture}, named? content = some fixture →
      c'.fixture = some (Path.join ((Path.parent? path).getD "") fixture) := fun hfixture => by
    rw [hfile.fixture, hfixture, Option.map_some]
  exact {
    prevails f := (hfile.prevails_iff hkeys hfits).mpr rfl
    nonzero := ⟨hzero .discoveryTimeout, hzero .lookupTimeout, hzero .maxConcurrentChains⟩
    engine collaborators := Engine.exists_create_eq_ok collaborators hcheck
    session := start_ne_access hcheck
    absolute fixture hfixture habsolute := by
      rw [hnamed hfixture, Path.join_of_isAbsolute habsolute]
    relative _ hfixture _ := hnamed hfixture
    beside directory name fixture hpath hdirectory hname hfixture hrelative := by
      rw [hnamed hfixture, hpath, Path.parent?_append hdirectory hname, Option.getD_some,
        Path.join_eq hdirectory hrelative]
    here fixture hname hfixture := by
      rw [hnamed hfixture, Path.parent?_of_isName hname, Option.getD_some, Path.join_empty]
    unnamed hnone := by rw [hfile.fixture, hnone, Option.map_none] }

/-- **What must be right**: the file, every variable, and every number that prevails. -/
theorem exists_load_eq_ok_iff (hkeys : (keys environment).Nodup) :
    (∃ c, load path content environment = .ok c) ↔
      ¬ Unusable content ∧ (∀ e ∈ environment, Fits e) ∧
        ∀ f x, Prevails content environment f x → ¬ f.IsZero x := by
  constructor
  · rintro ⟨c, h⟩
    obtain ⟨c', hc', hfits, hzero, -⟩ := load_eq_ok_iff.mp h
    refine ⟨exists_ofFile_eq_ok_iff.mp ⟨c', hc'⟩, hfits, fun f x hx => ?_⟩
    exact ((OfFile.of_ok hc').prevails_iff hkeys hfits).mp hx ▸ hzero f
  · rintro ⟨husable, hfits, hzero⟩
    obtain ⟨c', hc'⟩ := exists_ofFile_eq_ok_iff.mpr husable
    refine ⟨_, load_eq_ok_iff.mpr ⟨c', hc', hfits, fun f => ?_, rfl⟩⟩
    exact hzero f _ (((OfFile.of_ok hc').prevails_iff hkeys hfits).mpr rfl)

/-- A configuration can be loaded. -/
def Loads (path : String) (content : FileText) (environment : List Variable) : Prop :=
  ∃ c, load path content environment = .ok c

/-- It does not matter where the file is. -/
theorem loads_iff_of_path (hkeys : (keys environment).Nodup) (path path' : String) :
    Loads path content environment ↔ Loads path' content environment := by
  rw [Loads, Loads, exists_load_eq_ok_iff hkeys, exists_load_eq_ok_iff hkeys]

/-! ### Repairs -/

/-- **One more variable** decides about its setting, whatever the file says about it: the rest must
be right without it, and so must its own value. -/
theorem loads_cons_iff {e : Variable} {x : f.Kind} (hkeys : (keys (e :: environment)).Nodup)
    (hfor : IsFor f e) (hx : f.parse? e.2 = some x) :
    Loads path content (e :: environment) ↔
      ¬ f.IsZero x ∧ ¬ Unusable content ∧ (∀ e' ∈ environment, Fits e') ∧
        ∀ g ≠ f, ∀ y, Prevails content environment g y → ¬ g.IsZero y := by
  rw [Loads, exists_load_eq_ok_iff hkeys, List.forall_mem_cons,
    and_iff_right (fits_of_isFor hfor hx)]
  constructor
  · rintro ⟨husable, hfits, hzero⟩
    exact ⟨hzero f x ((prevails_cons_iff hkeys hfor hx).mpr rfl), husable, hfits,
      fun g hg y hy => hzero g y ((prevails_cons_of_ne hfor hg).mpr hy)⟩
  · rintro ⟨hzero, husable, hfits, hothers⟩
    refine ⟨husable, hfits, fun g y hy => ?_⟩
    by_cases hg : g = f
    · subst hg
      exact (prevails_cons_iff hkeys hfor hx).mp hy ▸ hzero
    · exact hothers g hg y ((prevails_cons_of_ne hfor hg).mp hy)

/-- A file that says one thing about one setting. -/
def fileWith (f : Setting) (value : String) : FileText :=
  .ok ("[access]\n" ++ f.name ++ " = " ++ value ++ "\n")

/-- A variable that says one thing about one setting. -/
def variableWith (f : Setting) (value : String) : Variable := ("WARDEN_ACCESS_" ++ f.name, value)

instance (path : String) (content : FileText) (environment : List Variable) :
    Decidable (Loads path content environment) :=
  decidable_of_iff ((load path content environment).toOption.isSome = true) <| by
    rw [Loads]
    cases load path content environment <;> simp [Except.toOption]

theorem nodup_keys_singleton (e : Variable) : (keys [e]).Nodup := by
  rw [keys, List.filterMap_cons]
  split <;> simp

theorem loads_fileWith (hf : f ≠ .acceptExpired) (path : String) :
    (¬ Loads path (fileWith f "0") [] ∧ Loads path (fileWith f "0") [variableWith f "1"]) ∧
      Loads path (fileWith f "1") [] ∧ ¬ Loads path (fileWith f "1") [variableWith f "0"] := by
  have hnil : (keys []).Nodup := List.nodup_nil
  rw [loads_iff_of_path hnil path "warden.toml", loads_iff_of_path hnil path "warden.toml",
    loads_iff_of_path (nodup_keys_singleton _) path "warden.toml",
    loads_iff_of_path (nodup_keys_singleton _) path "warden.toml"]
  cases f with
  | acceptExpired => exact absurd rfl hf
  | _ => decide +kernel

/-- **Layers.**  Let no two variables be meant for one key.  Then in a configuration that is loaded
each setting has the value that prevails, among the variables, the file and the usual values in this
order; no number is zero, so that every engine accepts the settings; and the fixture is where the
file says, seen from its directory.  Loading fails just if the file cannot be used, a variable does
not fit, or a number that prevails is zero.  So one more variable decides about its setting,
whatever the file says about it: it may repair a zero there, and spoil a number. -/
theorem load_layers (hkeys : (keys environment).Nodup) :
    (∀ c, load path content environment = .ok c → IsLoaded path content environment c) ∧
    ((∃ cause, load path content environment = .error cause) ↔
      Unusable content ∨ (∃ e ∈ environment, ¬ Fits e) ∨
        ∃ f x, Prevails content environment f x ∧ f.IsZero x) ∧
    (∀ (e : Variable) (f : Setting) (x : f.Kind), (keys (e :: environment)).Nodup → IsFor f e →
      f.parse? e.2 = some x →
        (Loads path content (e :: environment) ↔
          ¬ f.IsZero x ∧ ¬ Unusable content ∧ (∀ e' ∈ environment, Fits e') ∧
            ∀ g ≠ f, ∀ y, Prevails content environment g y → ¬ g.IsZero y)) ∧
    ∀ f ≠ .acceptExpired,
      (¬ Loads path (fileWith f "0") [] ∧ Loads path (fileWith f "0") [variableWith f "1"]) ∧
        Loads path (fileWith f "1") [] ∧ ¬ Loads path (fileWith f "1") [variableWith f "0"] := by
  refine ⟨fun c => .of_ok hkeys, ?_, fun e f x hcons hfor hx => loads_cons_iff hcons hfor hx,
    fun f hf => loads_fileWith hf path⟩
  rw [exists_error_iff, exists_load_eq_ok_iff hkeys]
  simp only [not_and_or, not_forall, not_not, exists_prop]

/-- A file with a deadline of zero, beside its fixture. -/
def unusableDeadline : String := "fixture = \"world.toml\"\n[access]\nlookup_timeout_ms = 0\n"

/-- Variables of which one repairs the deadline. -/
def repairedDeadline : List Variable :=
  [("HOME", "/root"), ("WARDEN_ACCESS_LOOKUP_TIMEOUT_MS", " 250 ")]

/-- The configuration with the deadline repaired. -/
theorem load_repaired_deadline :
    (keys repairedDeadline).Nodup ∧
      load "etc/warden.toml" (.ok unusableDeadline) repairedDeadline =
        .ok ⟨{ lookupTimeout := 250 }, some "etc/world.toml"⟩ ∧
      IsLoaded "etc/warden.toml" (.ok unusableDeadline) repairedDeadline
        ⟨{ lookupTimeout := 250 }, some "etc/world.toml"⟩ := by
  have hkeys : (keys repairedDeadline).Nodup := by decide +kernel
  have hload : load "etc/warden.toml" (.ok unusableDeadline) repairedDeadline =
      .ok ⟨{ lookupTimeout := 250 }, some "etc/world.toml"⟩ := by decide +kernel
  exact ⟨hkeys, hload, (load_layers hkeys).1 _ hload⟩

end Configuration

end CommandLine

end AccessWindows
