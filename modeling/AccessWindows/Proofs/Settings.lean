import AccessWindows.Settings
import Mathlib.Data.List.Basic

/-!
# Overriding settings — what the environment decides

A variable has no effect, gives one setting the value that its text denotes, or does not fit
(`override_step`).  So an environment is applied as a whole just if each of its variables fits
(`override_eq_ok_iff`), and then each setting has the value that the last variable meant for it
gives it, or the value that it had (`get_override`).

The names of variables are told apart by letter case only up to their common beginning.  Two of them
may be meant for one setting, and the later one stands: the order in which an environment is listed
matters for these, and for nothing else (`override_perm`).
-/

namespace AccessWindows

/-! ### Settings by name -/

namespace Setting

variable {f g : Setting}

/-- The values that a setting can have. -/
def Kind : Setting → Type
  | .discoveryTimeout => UInt64
  | .lookupTimeout => UInt64
  | .maxConcurrentChains => UInt64
  | .acceptExpired => Bool

/-- The value that a text denotes. -/
def parse? : (f : Setting) → String → Option f.Kind
  | .discoveryTimeout => Settings.number?
  | .lookupTimeout => Settings.number?
  | .maxConcurrentChains => Settings.number?
  | .acceptExpired => Settings.truth?

/-- The value that a document gives. -/
def ofValue? : (f : Setting) → Document.Value → Option f.Kind
  | .discoveryTimeout => Document.Value.word?
  | .lookupTimeout => Document.Value.word?
  | .maxConcurrentChains => Document.Value.word?
  | .acceptExpired => Document.Value.bool?

/-- The value is a number that cannot be used. -/
def IsZero : (f : Setting) → f.Kind → Prop
  | .discoveryTimeout, n => n = (0 : UInt64)
  | .lookupTimeout, n => n = (0 : UInt64)
  | .maxConcurrentChains, n => n = (0 : UInt64)
  | .acceptExpired, _ => False

/-- A name tells which setting it is the name of. -/
theorem name_inj : f.name = g.name ↔ f = g := by
  cases f <;> cases g <;> decide

/-- A setting is found by its name. -/
theorem ofName?_name (f : Setting) : ofName? f.name = some f := by
  cases f <;> rfl

theorem ofName?_eq_some_iff {key : String} : ofName? key = some f ↔ key = f.name := by
  constructor
  · intro h
    have hname := List.find?_some h
    exact (eq_of_beq hname).symm
  · rintro rfl
    exact f.ofName?_name

end Setting

namespace Settings

variable {s t : Settings} {f g : Setting}

/-- The value of a setting. -/
def get (s : Settings) : (f : Setting) → f.Kind
  | .discoveryTimeout => s.discoveryTimeout
  | .lookupTimeout => s.lookupTimeout
  | .maxConcurrentChains => s.maxConcurrentChains
  | .acceptExpired => s.acceptExpired

/-- Gives a setting a value. -/
def put (s : Settings) : (f : Setting) → f.Kind → Settings
  | .discoveryTimeout, n => { s with discoveryTimeout := n }
  | .lookupTimeout, n => { s with lookupTimeout := n }
  | .maxConcurrentChains, n => { s with maxConcurrentChains := n }
  | .acceptExpired, b => { s with acceptExpired := b }

/-- Settings are told by the values of the four. -/
theorem ext_get (h : ∀ f, s.get f = t.get f) : s = t := by
  obtain ⟨discovery, lookup, chains, expired⟩ := s
  obtain ⟨discovery', lookup', chains', expired'⟩ := t
  have hdiscovery : discovery = discovery' := h .discoveryTimeout
  have hlookup : lookup = lookup' := h .lookupTimeout
  have hchains : chains = chains' := h .maxConcurrentChains
  have hexpired : expired = expired' := h .acceptExpired
  rw [hdiscovery, hlookup, hchains, hexpired]

/-- A setting has the value that was put. -/
theorem get_put (s : Settings) (f : Setting) (x : f.Kind) : (s.put f x).get f = x := by
  cases f <;> rfl

/-- The other settings keep their values. -/
theorem get_put_of_ne (s : Settings) (x : f.Kind) (h : g ≠ f) : (s.put f x).get g = s.get g := by
  cases f <;> cases g <;> first | rfl | exact absurd rfl h

/-- A setting is set if the text can be read as a value of its kind. -/
theorem set?_eq (s : Settings) (f : Setting) (value : String) :
    s.set? f value = (f.parse? value).map (s.put f) := by
  cases f <;> rfl

/-- Settings pass their check just if no number is zero. -/
theorem check_eq_ok_iff : s.check = .ok t ↔ t = s ∧ ∀ f : Setting, ¬ f.IsZero (s.get f) := by
  have hall : (∀ f : Setting, ¬ f.IsZero (s.get f)) ↔
      s.discoveryTimeout ≠ 0 ∧ s.lookupTimeout ≠ 0 ∧ s.maxConcurrentChains ≠ 0 := by
    constructor
    · intro h
      exact ⟨h .discoveryTimeout, h .lookupTimeout, h .maxConcurrentChains⟩
    · rintro ⟨hdiscovery, hlookup, hchains⟩ f
      cases f with
      | discoveryTimeout => exact hdiscovery
      | lookupTimeout => exact hlookup
      | maxConcurrentChains => exact hchains
      | acceptExpired => exact not_false
  rw [hall, check]
  split
  next h => simp [h]
  next hdiscovery =>
      split
      next h => simp [h]
      next hlookup =>
          split
          next h => simp [h]
          next hchains => simp [hdiscovery, hlookup, hchains, eq_comm]

/-- What a document says about each setting, the usual values aside. -/
theorem exists_fields_of_ofValue? {d : Document.Dialect} {v : Document.Value}
    (h : ofValue? d v = some s) :
    ∃ fs, v.fields? d (Setting.all.map Setting.name) .refused = some fs ∧
      ∀ f : Setting, fs.optional f.name (({} : Settings).get f) f.ofValue? = some (s.get f) := by
  simp only [ofValue?, Option.bind_eq_bind, Option.bind_eq_some_iff] at h
  obtain ⟨fs, hfs, discovery, hdiscovery, lookup, hlookup, chains, hchains, expired, hexpired,
    h⟩ := h
  cases h
  refine ⟨fs, hfs, fun f => ?_⟩
  cases f with
  | discoveryTimeout => exact hdiscovery
  | lookupTimeout => exact hlookup
  | maxConcurrentChains => exact hchains
  | acceptExpired => exact hexpired

/-- A text is taken for a setting just if the key is its name and the text denotes a value. -/
theorem set_eq_ok_iff {key value : String} :
    s.set key value = .ok t ↔
      ∃ f : Setting, key = f.name ∧ ∃ x, f.parse? value = some x ∧ t = s.put f x := by
  have hset : ∀ f : Setting, s.set f.name value = .ok t ↔
      ∃ x, f.parse? value = some x ∧ t = s.put f x := by
    intro f
    simp only [set, f.ofName?_name, set?_eq]
    cases f.parse? value with
    | none => simp
    | some x => simp [eq_comm]
  constructor
  · intro h
    cases hf : Setting.ofName? key with
    | none =>
        simp only [set, hf] at h
        cases h
    | some f =>
        obtain rfl := Setting.ofName?_eq_some_iff.mp hf
        exact ⟨f, rfl, (hset f).mp h⟩
  · rintro ⟨f, rfl, h⟩
    exact (hset f).mpr h

/-! ### One variable -/

/-- The name and the text of an environment variable. -/
abbrev Variable := String × String

/-- The variable is meant for that setting. -/
def IsFor (f : Setting) (e : Variable) : Prop := overrideKey? e.1 = some f.name

instance (f : Setting) (e : Variable) : Decidable (IsFor f e) := inferInstanceAs (Decidable (_ = _))

/-- The variable is meant for no key at all, or for a setting of which its text denotes a value. -/
def Fits (e : Variable) : Prop :=
  ∀ key, overrideKey? e.1 = some key → ∃ f : Setting, key = f.name ∧ ∃ x, f.parse? e.2 = some x

/-- A variable is for one setting at most. -/
theorem IsFor.unique {e : Variable} (hf : IsFor f e) (hg : IsFor g e) : f = g :=
  Setting.name_inj.mp (Option.some.inj (hf.symm.trans hg))

/-- **Steps**: whatever follows, a variable is ignored, gives one setting a value, or ends it all
without an effect. -/
theorem override_step (s : Settings) (e : Variable) :
    (overrideKey? e.1 = none ∧ ∀ rest, s.override (e :: rest) = s.override rest) ∨
    (∃ f x, IsFor f e ∧ f.parse? e.2 = some x ∧
      ∀ rest, s.override (e :: rest) = (s.put f x).override rest) ∨
    (¬ Fits e ∧ ∃ key cause, overrideKey? e.1 = some key ∧ s.set key e.2 = .error cause ∧
      ∀ rest, s.override (e :: rest) = (s, .error cause)) := by
  obtain ⟨name, value⟩ := e
  cases hkey : overrideKey? name with
  | none =>
      refine .inl ⟨rfl, fun rest => ?_⟩
      simp only [override, hkey]
  | some key =>
      cases hset : s.set key value with
      | ok t =>
          have hrest : ∀ rest, s.override ((name, value) :: rest) = t.override rest := by
            intro rest
            simp only [override, hkey, hset]
          obtain ⟨f, rfl, x, hx, rfl⟩ := set_eq_ok_iff.mp hset
          exact .inr (.inl ⟨f, x, hkey, hx, hrest⟩)
      | error cause =>
          refine .inr (.inr ⟨fun hfits => ?_, key, cause, rfl, hset, fun rest => ?_⟩)
          · obtain ⟨f, hf, x, hx⟩ := hfits key hkey
            have hok : s.set key value = .ok (s.put f x) := set_eq_ok_iff.mpr ⟨f, hf, x, hx, rfl⟩
            rw [hset] at hok
            cases hok
          · simp only [override, hkey, hset]

/-- A variable without the prefix fits. -/
theorem fits_of_none {e : Variable} (h : overrideKey? e.1 = none) : Fits e := fun key hkey => by
  rw [h] at hkey
  cases hkey

/-- A variable whose value can be read for its setting fits. -/
theorem fits_of_isFor {e : Variable} {x : f.Kind} (h : IsFor f e) (hx : f.parse? e.2 = some x) :
    Fits e := fun _ hkey => ⟨f, Option.some.inj (hkey.symm.trans h), x, hx⟩

/-! ### A whole environment -/

variable {environment environment' : List Variable}

/-- **When an environment is applied**: all of its variables fit. -/
theorem override_eq_ok_iff :
    (s.override environment).2 = .ok () ↔ ∀ e ∈ environment, Fits e := by
  induction environment generalizing s with
  | nil => simp [override]
  | cons e rest ih =>
      rw [List.forall_mem_cons]
      obtain ⟨hnone, hstep⟩ | ⟨f, x, hf, hx, hstep⟩ | ⟨hfits, key, cause, -, -, hstep⟩ :=
        s.override_step e
      · rw [hstep, ih, and_iff_right (fits_of_none hnone)]
      · rw [hstep, ih, and_iff_right (fits_of_isFor hf hx)]
      · simp [hstep, hfits]

/-- The value that a variable gives to a setting. -/
def valueFor? (f : Setting) (e : Variable) : Option f.Kind :=
  if IsFor f e then f.parse? e.2 else none

/-- The values that the variables of an environment give to a setting, in their order. -/
def valuesFor (f : Setting) (environment : List Variable) : List f.Kind :=
  environment.filterMap (valueFor? f)

/-- The values for a setting are those that its variables give. -/
theorem mem_valuesFor {x : f.Kind} :
    x ∈ valuesFor f environment ↔ ∃ e ∈ environment, IsFor f e ∧ f.parse? e.2 = some x := by
  simp only [valuesFor, valueFor?, List.mem_filterMap, Option.ite_none_right_eq_some]

theorem valuesFor_cons_of_none {e : Variable} (h : overrideKey? e.1 = none) :
    valuesFor f (e :: environment) = valuesFor f environment := by
  have hfor : ¬ IsFor f e := fun hf => by
    rw [IsFor, h] at hf
    cases hf
  exact List.filterMap_cons_none (if_neg hfor)

theorem valuesFor_cons_of_isFor {e : Variable} {x : f.Kind} (h : IsFor f e)
    (hx : f.parse? e.2 = some x) :
    valuesFor f (e :: environment) = x :: valuesFor f environment :=
  List.filterMap_cons_some ((if_pos h).trans hx)

theorem valuesFor_cons_of_ne {e : Variable} (h : IsFor f e) (hg : g ≠ f) :
    valuesFor g (e :: environment) = valuesFor g environment :=
  List.filterMap_cons_none (if_neg fun hfor => hg (hfor.unique h))

/-- **What an environment decides**: the last variable for a setting gives it its value, and without
one it keeps its own. -/
theorem get_override (h : ∀ e ∈ environment, Fits e) (g : Setting) :
    (s.override environment).1.get g = (valuesFor g environment).getLast?.getD (s.get g) := by
  induction environment generalizing s with
  | nil => rfl
  | cons e rest ih =>
      obtain ⟨he, hrest⟩ := List.forall_mem_cons.mp h
      obtain ⟨hnone, hstep⟩ | ⟨f, x, hf, hx, hstep⟩ | ⟨hfits, -⟩ := s.override_step e
      · rw [hstep, ih hrest, valuesFor_cons_of_none hnone]
      · rw [hstep, ih hrest]
        by_cases hg : g = f
        · subst hg
          rw [valuesFor_cons_of_isFor hf hx, get_put, List.getLast?_cons, Option.getD_some]
        · rw [valuesFor_cons_of_ne hf hg, get_put_of_ne s x hg]
      · exact absurd he hfits

/-- Where all variables fit, only those for a setting give it a value. -/
theorem valuesFor_eq_nil_iff (h : ∀ e ∈ environment, Fits e) :
    valuesFor f environment = [] ↔ ∀ e ∈ environment, ¬ IsFor f e := by
  rw [List.eq_nil_iff_forall_not_mem]
  simp only [mem_valuesFor]
  constructor
  · intro hnone e he hfor
    obtain ⟨g, hg, x, hx⟩ := h e he _ hfor
    obtain rfl := Setting.name_inj.mp hg
    exact hnone x ⟨e, he, hfor, hx⟩
  · rintro hnone x ⟨e, he, hfor, -⟩
    exact hnone e he hfor

/-! ### The order of an environment -/

/-- The keys that the variables of an environment are meant for, in their order. -/
def keys (environment : List Variable) : List String :=
  environment.filterMap fun e => overrideKey? e.1

theorem keys_cons_of_none {e : Variable} (h : overrideKey? e.1 = none) :
    keys (e :: environment) = keys environment := List.filterMap_cons_none h

theorem keys_cons_of_some {e : Variable} {key : String} (h : overrideKey? e.1 = some key) :
    keys (e :: environment) = key :: keys environment := List.filterMap_cons_some h

/-- A variable for a setting has the name of the setting as its key. -/
theorem IsFor.mem_keys {e : Variable} (h : IsFor f e) (he : e ∈ environment) :
    f.name ∈ keys environment := List.mem_filterMap.mpr ⟨e, he, h⟩

/-- A setting that no variable is for is given no value. -/
theorem valuesFor_eq_nil (h : f.name ∉ keys environment) : valuesFor f environment = [] := by
  refine List.eq_nil_iff_forall_not_mem.mpr fun x hx => ?_
  obtain ⟨e, he, hfor, -⟩ := mem_valuesFor.mp hx
  exact h (hfor.mem_keys he)

/-- Variables for different keys give a setting at most one value. -/
theorem length_valuesFor_le (h : (keys environment).Nodup) (f : Setting) :
    (valuesFor f environment).length ≤ 1 := by
  induction environment with
  | nil => exact Nat.zero_le 1
  | cons e rest ih =>
      cases hkey : overrideKey? e.1 with
      | none =>
          rw [keys_cons_of_none hkey] at h
          rw [valuesFor_cons_of_none hkey]
          exact ih h
      | some key =>
          rw [keys_cons_of_some hkey, List.nodup_cons] at h
          rw [valuesFor, List.filterMap_cons, ← valuesFor]
          split
          next => exact ih h.2
          next x hx =>
              have hfor : IsFor f e := (Option.ite_none_right_eq_some.mp hx).1
              obtain rfl := Option.some.inj (hkey.symm.trans hfor)
              rw [valuesFor_eq_nil h.1]
              exact Nat.le_refl 1

/-- In whatever order a single value is listed, it is the last. -/
theorem getLast?_eq_of_perm {α : Type} {l l' : List α} (h : l.Perm l') (hlength : l.length ≤ 1) :
    l.getLast? = l'.getLast? := by
  match l, hlength with
  | [], _ => rw [List.nil_perm.mp h]
  | [x], _ => rw [List.singleton_perm.mp h]

/-- Settings that were overridden in two orders agree just if the last values do. -/
theorem override_eq_iff (hfits : ∀ e ∈ environment, Fits e)
    (hperm : environment.Perm environment') :
    (s.override environment).1 = (s.override environment').1 ↔
      ∀ f, (valuesFor f environment).getLast? = (valuesFor f environment').getLast? := by
  have hfits' : ∀ e ∈ environment', Fits e := fun e he => hfits e (hperm.mem_iff.mpr he)
  constructor
  · intro h f
    have hget := congrArg (·.get f) h
    simp only [get_override hfits, get_override hfits'] at hget
    have hvalues : (valuesFor f environment).Perm (valuesFor f environment') := hperm.filterMap _
    by_cases hnil : valuesFor f environment = []
    · rw [hnil, List.nil_perm] at hvalues
      rw [hnil, hvalues]
    · have hnil' : valuesFor f environment' ≠ [] := fun h => hnil (h ▸ hvalues).eq_nil
      rw [List.getLast?_eq_some_getLast hnil, List.getLast?_eq_some_getLast hnil'] at hget ⊢
      exact congrArg some hget
  · intro h
    exact ext_get fun f => by rw [get_override hfits, get_override hfits', h]

/-- **Order.**  Whether an environment is applied as a whole does not depend on the order in which
it is listed.  What comes out depends on it only where several variables are meant for one setting:
two orders give the same settings just if for each setting the last values are the same, and so
always if no two variables are meant for one key. -/
theorem override_perm (s : Settings) (hperm : environment.Perm environment') :
    ((s.override environment).2 = .ok () ↔ (s.override environment').2 = .ok ()) ∧
    ((s.override environment).2 = .ok () →
      ((s.override environment).1 = (s.override environment').1 ↔
        ∀ f, (valuesFor f environment).getLast? = (valuesFor f environment').getLast?) ∧
      ((keys environment).Nodup → (s.override environment).1 = (s.override environment').1)) := by
  refine ⟨?_, fun hok => ?_⟩
  · rw [override_eq_ok_iff, override_eq_ok_iff]
    exact ⟨fun h e he => h e (hperm.mem_iff.mpr he), fun h e he => h e (hperm.mem_iff.mp he)⟩
  · have hiff := override_eq_iff (s := s) (override_eq_ok_iff.mp hok) hperm
    exact ⟨hiff, fun hkeys => hiff.mpr fun f =>
      getLast?_eq_of_perm (hperm.filterMap _) (length_valuesFor_le hkeys f)⟩

/-- Two deadlines and a variable that overrides nothing. -/
def deadlines : List Variable :=
  [("WARDEN_ACCESS_LOOKUP_TIMEOUT_MS", "250"), ("HOME", "/root"),
    ("WARDEN_ACCESS_discovery_timeout_ms", " 900 ")]

/-- The deadlines are the same in reverse. -/
theorem override_reversed_deadlines :
    deadlines.Perm deadlines.reverse ∧ (({} : Settings).override deadlines).2 = .ok () ∧
      (keys deadlines).Nodup ∧
      (({} : Settings).override deadlines).1 = (({} : Settings).override deadlines.reverse).1 := by
  have hperm : deadlines.Perm deadlines.reverse := (List.reverse_perm deadlines).symm
  have hok : (({} : Settings).override deadlines).2 = .ok () := by decide +kernel
  have hkeys : (keys deadlines).Nodup := by decide +kernel
  exact ⟨hperm, hok, hkeys, ((override_perm {} hperm).2 hok).2 hkeys⟩

/-- One deadline under two names that differ in letter case. -/
def spelledTwice : List Variable :=
  [("WARDEN_ACCESS_LOOKUP_TIMEOUT_MS", "1"), ("WARDEN_ACCESS_lookup_timeout_ms", "2")]

/-- Distinct names do not make the order irrelevant: of two spellings of one name the later one
stands. -/
theorem override_order_matters :
    ¬ ∀ (s : Settings) (environment environment' : List Variable),
      (environment.map Prod.fst).Nodup → environment.Perm environment' →
        ((s.override environment).2 = .ok () ↔ (s.override environment').2 = .ok ()) ∧
        ((s.override environment).2 = .ok () →
          (s.override environment).1 = (s.override environment').1) := by
  intro h
  have hnames : (spelledTwice.map Prod.fst).Nodup := by decide +kernel
  have hperm : spelledTwice.Perm spelledTwice.reverse := (List.reverse_perm spelledTwice).symm
  have hok : (({} : Settings).override spelledTwice).2 = .ok () := by decide +kernel
  have hdiffer : (({} : Settings).override spelledTwice).1 ≠
      (({} : Settings).override spelledTwice.reverse).1 := by decide +kernel
  exact hdiffer ((h {} spelledTwice spelledTwice.reverse hnames hperm).2 hok)

end Settings

end AccessWindows
