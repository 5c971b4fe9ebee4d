import Hiaux.LoadConf.Correctness.Templates

/-!
# `LoadConf.Correctness.Parameters` — which parameters `load` gives

The two loops of `load` assign one parameter after the other. They come to their end if each has a value, and each
is then there with the text of its member, whether it is listed once or more often (`assignEach_iff`); otherwise
the first one without a value says why (`assignEach_error_iff`).
-/

namespace Hiaux
namespace LoadConf

open Lib

/-! ## The loops -/

section Loop

variable {value : Bytes → Except LoadEx Bytes} {names : List Bytes} {params m : StrMap} {e : LoadEx}

/-- Each of the names has a value. -/
def HasAll (value : Bytes → Except LoadEx Bytes) (names : List Bytes) : Prop :=
  ∀ name ∈ names, ∃ text, value name = .ok text

/-- The first of the names without a value, and the exception in its place. -/
def FirstWithout (value : Bytes → Except LoadEx Bytes) (names : List Bytes) (e : LoadEx) : Prop :=
  ∃ front name behind, names = front ++ name :: behind ∧ HasAll value front ∧ value name = .error e

theorem HasAll.cons {name text : Bytes} (h : value name = .ok text) (hnames : HasAll value names) :
    HasAll value (name :: names) :=
  List.forall_mem_cons.mpr ⟨⟨text, h⟩, hnames⟩

theorem FirstWithout.not_hasAll (h : FirstWithout value names e) : ¬ HasAll value names := by
  obtain ⟨front, name, behind, rfl, -, hname⟩ := h
  intro hall
  obtain ⟨text, htext⟩ := hall name (by simp)
  exact absurd (hname.symm.trans htext) (by simp)

/-- **The loop with all values**: the parameters are assigned. -/
theorem assignEach_of_hasAll (h : HasAll value names) (params : StrMap) :
    ∃ m, assignEach value names params = .ok m ∧
      ∀ name, m[name]? = if name ∈ names then (value name).toOption else params[name]? := by
  induction names generalizing params with
  | nil => exact ⟨params, rfl, fun _ => rfl⟩
  | cons name names ih =>
      obtain ⟨⟨text, htext⟩, hnames⟩ := List.forall_mem_cons.mp h
      obtain ⟨m, hm, hget⟩ := ih hnames (params.insert name text)
      refine ⟨m, ?_, fun other => ?_⟩
      · rw [assignEach, htext]
        exact hm
      · rw [hget other, Std.ExtTreeMap.getElem?_insert]
        by_cases hother : other ∈ names
        · rw [if_pos hother, if_pos (List.mem_cons_of_mem name hother)]
        · by_cases heq : other = name
          · subst heq
            rw [if_neg hother, if_pos (by simp), if_pos List.mem_cons_self, htext]
            rfl
          · have hne : ¬ compare name other = .eq :=
              fun hcompare => heq (Std.LawfulEqCmp.eq_of_compare hcompare).symm
            rw [if_neg hother, if_neg hne, if_neg (by simp [heq, hother])]

/-- **The loop without some value**: the exception of the first one. -/
theorem assignEach_of_firstWithout (h : FirstWithout value names e) (params : StrMap) :
    assignEach value names params = .error e := by
  obtain ⟨front, name, behind, rfl, hfront, hname⟩ := h
  induction front generalizing params with
  | nil =>
      rw [List.nil_append, assignEach, hname]
      rfl
  | cons first front ih =>
      obtain ⟨⟨text, htext⟩, hfront⟩ := List.forall_mem_cons.mp hfront
      rw [List.cons_append, assignEach, htext]
      exact ih _ hfront

variable (value names) in
theorem hasAll_or_firstWithout : HasAll value names ∨ ∃ e, FirstWithout value names e := by
  induction names with
  | nil => exact Or.inl fun _ h => absurd h List.not_mem_nil
  | cons name names ih =>
      cases hname : value name with
      | error e => exact Or.inr ⟨e, [], name, names, rfl, fun _ h => absurd h List.not_mem_nil, hname⟩
      | ok text =>
          rcases ih with hall | ⟨e, front, first, behind, rfl, hfront, hfirst⟩
          · exact Or.inl (hall.cons hname)
          · exact Or.inr ⟨e, name :: front, first, behind, rfl, hfront.cons hname, hfirst⟩

theorem assignEach_iff : assignEach value names params = .ok m ↔
    HasAll value names ∧ ∀ name, m[name]? = if name ∈ names then (value name).toOption else params[name]? := by
  rcases hasAll_or_firstWithout value names with hall | ⟨e, hfirst⟩
  · obtain ⟨m', hm', hget⟩ := assignEach_of_hasAll hall params
    rw [hm']
    constructor
    · intro h
      obtain rfl := Except.ok.inj h
      exact ⟨hall, hget⟩
    · rintro ⟨-, h⟩
      exact congrArg Except.ok (Std.ExtTreeMap.ext_getElem? fun name => (hget name).trans (h name).symm)
  · rw [assignEach_of_firstWithout hfirst params]
    exact iff_of_false (by simp) fun h => hfirst.not_hasAll h.1

theorem assignEach_error_iff : assignEach value names params = .error e ↔ FirstWithout value names e := by
  refine ⟨fun h => ?_, fun h => assignEach_of_firstWithout h params⟩
  rcases hasAll_or_firstWithout value names with hall | ⟨e', hfirst⟩
  · obtain ⟨m, hm, -⟩ := assignEach_of_hasAll hall params
    exact absurd (h.symm.trans hm) (by simp)
  · rw [assignEach_of_firstWithout hfirst params] at h
    exact Except.error.inj h ▸ hfirst

end Loop

/-! ## The members of a file -/

section Load

variable {Value : Type} (json : JsonLibrary Value) {env : Environment} {configFile : Bytes}
  {content : Option Bytes} {required optional : List Bytes} {root : Value} {name : Bytes}

/-- The text of a member, if the library gives one. -/
def memberText (root : Value) (name : Bytes) : Option Bytes := (json.member root name).bind json.asString

/-- A member that is a string. -/
def IsSet (root : Value) (name : Bytes) : Prop :=
  ∃ value, json.member root name = some value ∧ json.isString value = true

variable {json}

theorem IsSet.text (h : IsSet json root name) : ∃ text, memberText json root name = some text := by
  obtain ⟨value, hvalue, hstring⟩ := h
  obtain ⟨text, htext⟩ := Option.isSome_iff_exists.mp (json.asString_isSome hstring)
  exact ⟨text, by rw [memberText, hvalue, Option.bind_some, htext]⟩

theorem optionalText_of_memberText {text : Bytes} (h : memberText json root name = some text) :
    optionalText json root name = .ok text := by
  rw [memberText] at h
  rw [optionalText, h]

theorem optionalText_of_none (h : memberText json root name = none) :
    optionalText json root name = .error .json := by
  rw [memberText] at h
  rw [optionalText, h]

theorem requiredText_of_isSet (configFile : Bytes) (h : IsSet json root name) :
    requiredText json root configFile name = optionalText json root name := by
  obtain ⟨value, hvalue, hstring⟩ := h
  rw [requiredText, hvalue]
  exact if_pos hstring

/-- A member that is no string is refused. -/
theorem requiredText_of_not_isSet (configFile : Bytes) (h : ¬ IsSet json root name) :
    requiredText json root configFile name =
      .error (if json.member root name = none then .json else paramNotSet configFile name) := by
  cases hvalue : json.member root name with
  | none =>
      rw [requiredText, hvalue]
      rfl
  | some value =>
      have hstring : ¬ json.isString value = true := fun hstring => h ⟨value, hvalue, hstring⟩
      rw [requiredText, hvalue, if_neg (by simp)]
      exact if_neg hstring

theorem hasAll_required_iff : HasAll (requiredText json root configFile) required ↔
    ∀ name ∈ required, IsSet json root name := by
  refine forall₂_congr fun name _ => ⟨fun ⟨text, htext⟩ => ?_, fun h => ?_⟩
  · by_contra hnot
    rw [requiredText_of_not_isSet configFile hnot] at htext
    exact absurd htext (by simp)
  · obtain ⟨text, htext⟩ := h.text
    exact ⟨text, (requiredText_of_isSet configFile h).trans (optionalText_of_memberText htext)⟩

theorem hasAll_optional_iff : HasAll (optionalText json root) optional ↔
    ∀ name ∈ optional, (memberText json root name).isSome = true := by
  refine forall₂_congr fun name _ => ?_
  cases h : memberText json root name with
  | none => simp [optionalText_of_none h]
  | some text => simp [optionalText_of_memberText h]

theorem toOption_optionalText : (optionalText json root name).toOption = memberText json root name := by
  cases h : memberText json root name with
  | none =>
      rw [optionalText_of_none h]
      rfl
  | some text =>
      rw [optionalText_of_memberText h]
      rfl

/-- The members that the two loops look up. -/
theorem lookup_eq {m : StrMap} (hrequired : ∀ name ∈ required, IsSet json root name)
    (hget : ∀ name, m[name]? =
      if name ∈ required then (requiredText json root configFile name).toOption else (∅ : StrMap)[name]?)
    (name : Bytes) : (if name ∈ optional then (optionalText json root name).toOption else m[name]?) =
      if name ∈ required ∨ name ∈ optional then memberText json root name else none := by
  by_cases hoptional : name ∈ optional
  · rw [if_pos hoptional, if_pos (Or.inr hoptional), toOption_optionalText]
  · rw [if_neg hoptional, hget name]
    by_cases hname : name ∈ required
    · rw [if_pos hname, if_pos (Or.inl hname), requiredText_of_isSet configFile (hrequired name hname),
        toOption_optionalText]
    · rw [if_neg hname, if_neg (not_or.mpr ⟨hname, hoptional⟩), Std.ExtTreeMap.getElem?_empty]

/-- The second loop goes on where the first has ended. -/
theorem doLoad_of_hasAll (h : HasAll (requiredText json root configFile) required) (optional : List Bytes) :
    ∃ m : StrMap, (doLoadRequired json root required ∅ configFile >>= doLoadOptional json root optional) =
        assignEach (optionalText json root) optional m ∧
      ∀ name, m[name]? =
        if name ∈ required then (requiredText json root configFile name).toOption else (∅ : StrMap)[name]? := by
  obtain ⟨m, hm, hget⟩ := assignEach_of_hasAll h ∅
  refine ⟨m, ?_, hget⟩
  rw [doLoadRequired, hm]
  rfl

theorem doLoad_of_firstWithout {e : LoadEx} (h : FirstWithout (requiredText json root configFile) required e)
    (optional : List Bytes) :
    (doLoadRequired json root required ∅ configFile >>= doLoadOptional json root optional) = .error e := by
  rw [doLoadRequired, assignEach_of_firstWithout h]
  rfl

/-- **The two loops**, one after the other. -/
theorem doLoad_iff {params : StrMap} :
    (doLoadRequired json root required ∅ configFile >>= doLoadOptional json root optional) = .ok params ↔
      (∀ name ∈ required, IsSet json root name) ∧
        (∀ name ∈ optional, (memberText json root name).isSome = true) ∧
        ∀ name, params[name]? =
          if name ∈ required ∨ name ∈ optional then memberText json root name else none := by
  rcases hasAll_or_firstWithout (requiredText json root configFile) required with hall | ⟨e, hfirst⟩
  · obtain ⟨m, hloop, hget⟩ := doLoad_of_hasAll hall optional
    have hrequired := hasAll_required_iff.mp hall
    rw [hloop, assignEach_iff, hasAll_optional_iff]
    simp only [lookup_eq hrequired hget]
    exact (and_iff_right hrequired).symm
  · rw [doLoad_of_firstWithout hfirst optional]
    exact iff_of_false (by simp) fun h => hfirst.not_hasAll (hasAll_required_iff.mpr h.1)

theorem doLoad_error_iff {e : LoadEx} :
    (doLoadRequired json root required ∅ configFile >>= doLoadOptional json root optional) = .error e ↔
      FirstWithout (requiredText json root configFile) required e ∨
        (∀ name ∈ required, IsSet json root name) ∧ FirstWithout (optionalText json root) optional e := by
  rcases hasAll_or_firstWithout (requiredText json root configFile) required with hall | ⟨e', hfirst⟩
  · obtain ⟨m, hloop, -⟩ := doLoad_of_hasAll hall optional
    have hnot : ¬ FirstWithout (requiredText json root configFile) required e := fun h => h.not_hasAll hall
    rw [hloop, assignEach_error_iff, or_iff_right hnot, and_iff_right (hasAll_required_iff.mp hall)]
  · have herror := doLoad_of_firstWithout hfirst optional
    constructor
    · intro h
      exact Or.inl (Except.error.inj (herror.symm.trans h) ▸ hfirst)
    · rintro (h | ⟨hrequired, -⟩)
      · exact doLoad_of_firstWithout h optional
      · exact absurd (hasAll_required_iff.mpr hrequired) hfirst.not_hasAll

/-- **What `load` gives**: the parameters of a file that is read, if the required ones are strings and the others
    have a text. They are the members with these names, and nothing else is there. -/
theorem load_iff (json : JsonLibrary Value) (env : Environment) (configFile : Bytes) (content : Option Bytes)
    (required optional : List Bytes) (params : StrMap) :
    load json env configFile content required optional = .ok params ↔
      ∃ root, parseFile env json.parse configFile content = .ok root ∧
        (∀ name ∈ required, IsSet json root name) ∧
        (∀ name ∈ optional, (memberText json root name).isSome = true) ∧
        ∀ name, params[name]? =
          if name ∈ required ∨ name ∈ optional then memberText json root name else none := by
  rw [load]
  cases hparse : parseFile env json.parse configFile content with
  | error e => simp
  | ok root =>
      refine doLoad_iff.trans ⟨fun h => ⟨root, rfl, h⟩, ?_⟩
      rintro ⟨root', hroot, h⟩
      obtain rfl := Except.ok.inj hroot
      exact h

/-- A JSON value, as far as configuration files have them. -/
inductive JsonValue where
  | null
  | string (text : Bytes)
  | object (members : List (Bytes × JsonValue))

namespace JsonValue

/-- `value[name]`: a member that is not there is `null`, and a string has none. -/
def member : JsonValue → Bytes → Option JsonValue
  | .null, _ => some .null
  | .string _, _ => none
  | .object members, name => some ((members.lookup name).getD .null)

def isString : JsonValue → Bool
  | .string _ => true
  | _ => false

/-- `value.asString()`, which an object refuses. -/
def asString : JsonValue → Option Bytes
  | .null => some []
  | .string text => some text
  | .object _ => none

/-- What a file with a host and a path holds. -/
def settings : JsonValue :=
  .object [(ascii "host", .string (ascii "localhost")), (ascii "path", .string (ascii "/var/db"))]

/-- The text of that file. -/
def settingsText : Bytes := ascii "\x7b\"host\": \"localhost\", \"path\": \"/var/db\"\x7d"

/-- The JSON library, with a reader of that text. -/
def library : JsonLibrary JsonValue where
  parse := fun text => if text = settingsText then some settings else none
  member := member
  isString := isString
  asString := asString
  asString_isSome := by
    intro value h
    cases value with
    | null => rfl
    | string text => rfl
    | object members => exact absurd h (by simp [isString])

end JsonValue

/-- A file with a required parameter, an optional one, and one that is not there. -/
theorem load_settings :
    load JsonValue.library noVariables (ascii "db.conf") (some (JsonValue.settingsText ++ [newline])) [ascii "host"]
        [ascii "path", ascii "user"] =
      .ok (((∅ : StrMap).insert (ascii "host") (ascii "localhost")).insert (ascii "path") (ascii "/var/db")
        |>.insert (ascii "user") []) := by
  refine (load_iff JsonValue.library noVariables _ _ _ _ _).mpr ⟨JsonValue.settings, ?_, ?_, ?_, ?_⟩
  · have hreplaced : replaceEnvParams noVariables (JsonValue.settingsText ++ [newline]) =
        ⟨JsonValue.settingsText, none, false⟩ :=
      replaceFrom_last (by decide) noVariables [] [] false
    have hparse : JsonValue.library.parse JsonValue.settingsText = some JsonValue.settings := by
      simp [JsonValue.library]
    rw [parseFile, hreplaced]
    dsimp only
    rw [hparse]
  · intro name hname
    obtain rfl := List.mem_singleton.mp hname
    exact ⟨.string (ascii "localhost"), rfl, rfl⟩
  · have hall : ∀ name ∈ [ascii "path", ascii "user"],
        (memberText JsonValue.library JsonValue.settings name).isSome = true := by decide
    exact hall
  · intro name
    by_cases hhost : name = ascii "host"
    · rw [hhost]
      rfl
    · by_cases hpath : name = ascii "path"
      · rw [hpath]
        rfl
      · by_cases huser : name = ascii "user"
        · rw [huser]
          rfl
        · simp [hhost, hpath, huser, Ne.symm hhost, Ne.symm hpath, Ne.symm huser]

/-- **Why `load` gives up**: the file is not read, or the first parameter that is not there as it should be. A
    required parameter whose member is no string is named. -/
theorem load_error_iff (json : JsonLibrary Value) (env : Environment) (configFile : Bytes) (content : Option Bytes)
    (required optional : List Bytes) (e : LoadEx) :
    load json env configFile content required optional = .error e ↔
      (∃ text, parseFile env json.parse configFile content = .error text ∧ e = .message text) ∨
      ∃ root, parseFile env json.parse configFile content = .ok root ∧
        (FirstWithout (requiredText json root configFile) required e ∨
          (∀ name ∈ required, IsSet json root name) ∧ FirstWithout (optionalText json root) optional e) := by
  rw [load]
  cases hparse : parseFile env json.parse configFile content with
  | error text => simp [eq_comm]
  | ok root =>
      refine doLoad_error_iff.trans ⟨fun h => Or.inr ⟨root, rfl, h⟩, ?_⟩
      rintro (⟨text, htext, -⟩ | ⟨root', hroot, h⟩)
      · exact absurd htext (by simp)
      · obtain rfl := Except.ok.inj hroot
        exact h

end Load

end LoadConf
end Hiaux
