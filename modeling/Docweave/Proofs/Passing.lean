import Docweave.Proofs.Matching.Building
import Mathlib

/-!
An argument may be given by position or by keyword.

Nothing that is built from arguments looks at the arguments themselves: it asks for parameters by
their places.  So what has to be shown of two ways of giving arguments is that they fit the names
alike, and that after that the same is given for every parameter (`Params.Alike`).  Everything that
reads parameters then gives the same answer to both, faults with their wording included, because the
name of a parameter does not depend on how it was given.

Moving the last argument from its position to its name passes this test (`Params.bind_alike`).  The
keyword has the place right behind the positions that are left, so it repeats none of them, and
every other keyword is judged as it was before.
-/

namespace Docweave

namespace Params

/-- The names are the same, and so is what is given for each of them. -/
structure Alike (p q : Params) : Prop where
  names : p.names = q.names
  given? : ∀ i, p.given? i = q.given? i

/-! ### Reading parameters -/

namespace Alike

variable {p q : Params}

theorem label (h : p.Alike q) (i : Nat) : p.label i = q.label i := by
  unfold Params.label
  rw [h.names]

theorem get? (h : p.Alike q) (i : Nat) : p.get? i = q.get? i := by
  unfold Params.get?
  rw [h.given?]

theorem typed? (h : p.Alike q) {α : Type} (expected : ParamType) (read : Value → Option α)
    (i : Nat) : Params.typed? expected read p i = Params.typed? expected read q i := by
  unfold Params.typed?
  rw [h.get?, h.label]

theorem required (h : p.Alike q) {α : Type} (i : Nat) (found : Except CallFault (Option α)) :
    p.required i found = q.required i found := by
  unfold Params.required
  rw [h.label]

theorem require (h : p.Alike q) (i : Nat) : p.require i = q.require i := by
  unfold Params.require
  rw [h.get?, h.required]

theorem text? (h : p.Alike q) (i : Nat) : p.text? i = q.text? i :=
  h.typed? _ _ i

theorem flag? (h : p.Alike q) (i : Nat) : p.flag? i = q.flag? i :=
  h.typed? _ _ i

theorem number? (h : p.Alike q) (i : Nat) : p.number? i = q.number? i :=
  h.typed? _ _ i

theorem integer? (h : p.Alike q) (i : Nat) : p.integer? i = q.integer? i := by
  unfold Params.integer?
  rw [h.typed?, h.label]

theorem size? (h : p.Alike q) (i : Nat) : p.size? i = q.size? i := by
  unfold Params.size?
  rw [h.integer?, h.label]

theorem ruleSize (h : p.Alike q) (rule : SizeRule) (i : Nat) (missing : String) :
    Matcher.Draft.ruleSize rule p i missing = Matcher.Draft.ruleSize rule q i missing := by
  unfold Matcher.Draft.ruleSize
  rw [h.size?]

end Alike

/-! ### Moving an argument -/

variable {names : List String} {positional : List Value} {v : Value} {before after : Fields}
  {name : String}

theorem idxOf?_eq_some_iff (hnodup : names.Nodup) {key : String} {i : Nat} :
    names.idxOf? key = some i ↔ names[i]? = some key := by
  rw [List.idxOf?, List.findIdx?_eq_some_iff_getElem]
  constructor
  · rintro ⟨hi, hkey, -⟩
    rw [List.getElem?_eq_getElem hi, eq_of_beq hkey]
  · intro h
    obtain ⟨hi, rfl⟩ := List.getElem?_eq_some_iff.mp h
    refine ⟨hi, beq_self_eq_true _, fun j hj heq => ?_⟩
    have hij := hnodup.getElem_inj_iff.mp (eq_of_beq heq)
    omega

/-- A keyword for another parameter is judged alike, whichever way the last argument is given. -/
theorem checkKeyword_succ (hnodup : names.Nodup) {n : Nat} (hname : names[n]? = some name)
    {key : String} (hne : key ≠ name) :
    checkKeyword names (n + 1) key = checkKeyword names n key := by
  unfold checkKeyword
  cases hidx : names.idxOf? key with
  | none => rfl
  | some i =>
      have hkey := (idxOf?_eq_some_iff hnodup).mp hidx
      have hin : i ≠ n := by
        rintro rfl
        exact hne (Option.some.inj (hkey.symm.trans hname))
      have hlt : i < n + 1 ↔ i < n := by omega
      simp only [hlt]

/-- The keyword for the first parameter behind the positions repeats no argument. -/
theorem checkKeyword_self (hnodup : names.Nodup) {n : Nat} (hname : names[n]? = some name) :
    checkKeyword names n name = .ok () := by
  unfold checkKeyword
  rw [(idxOf?_eq_some_iff hnodup).mpr hname]
  exact if_neg (Nat.lt_irrefl n)

theorem forM_checkKeyword_succ (hnodup : names.Nodup) {n : Nat} (hname : names[n]? = some name)
    {keys : List String} (hnew : name ∉ keys) :
    keys.forM (checkKeyword names (n + 1)) = keys.forM (checkKeyword names n) := by
  induction keys with
  | nil => rfl
  | cons key keys ih =>
      obtain ⟨hne, hrest⟩ := List.ne_and_not_mem_of_not_mem_cons hnew
      rw [List.forM_eq_forM] at ih ⊢
      rw [List.forM_cons, List.forM_cons, checkKeyword_succ hnodup hname (Ne.symm hne), ih hrest]

/-- The keywords are judged alike, the one for the argument that was moved included. -/
theorem forM_checkKeyword_moved (hnodup : names.Nodup) {n : Nat} (hname : names[n]? = some name)
    (hnew : name ∉ Entries.keys (before ++ after)) :
    (Entries.keys (before ++ after)).forM (checkKeyword names (n + 1)) =
      (Entries.keys (before ++ (name, v) :: after)).forM (checkKeyword names n) := by
  rw [forM_checkKeyword_succ hnodup hname hnew]
  unfold Entries.keys
  rw [List.map_append, List.map_append, List.map_cons, List.forM_eq_forM, List.forM_append,
    List.forM_append, List.forM_cons, checkKeyword_self hnodup hname]
  rfl

theorem find?_moved (hnew : name ∉ Entries.keys (before ++ after)) (key : String) :
    Entries.find? (before ++ (name, v) :: after) key =
      if key = name then some v else Entries.find? (before ++ after) key := by
  induction before with
  | nil => rw [List.nil_append, Entries.find?_cons]; simp only [eq_comm, List.nil_append]
  | cons e before ih =>
      obtain ⟨k, w⟩ := e
      obtain ⟨hne, hrest⟩ := List.ne_and_not_mem_of_not_mem_cons hnew
      rw [List.cons_append, List.cons_append, Entries.find?_cons, Entries.find?_cons, ih hrest]
      by_cases hk : k = key
      · subst hk
        rw [if_pos rfl, if_pos rfl, if_neg (Ne.symm hne)]
      · rw [if_neg hk, if_neg hk]

/-- A position goes before a keyword. -/
theorem given?_eq (p : Params) (i : Nat) :
    p.given? i = (p.args.positional[i]?).or
      ((p.names[i]?).bind fun name => Entries.find? p.args.keywords name) := by
  unfold given?
  cases p.args.positional[i]? with
  | none => rfl
  | some w => rfl

/-- The same is given for every parameter, whichever way the last argument is given. -/
theorem alike_moved (hnodup : names.Nodup) (hname : names[positional.length]? = some name)
    (hnew : name ∉ Entries.keys (before ++ after)) :
    Alike ⟨names, ⟨positional ++ [v], before ++ after⟩⟩
      ⟨names, ⟨positional, before ++ (name, v) :: after⟩⟩ := by
  refine ⟨rfl, fun i => ?_⟩
  rw [given?_eq, given?_eq]
  rcases Nat.lt_trichotomy i positional.length with hlt | rfl | hgt
  · rw [List.getElem?_append_left hlt, List.getElem?_eq_getElem hlt, Option.some_or, Option.some_or]
  · rw [List.getElem?_concat_length, List.getElem?_eq_none (Nat.le_refl _), hname]
    simp only [Option.some_or, Option.none_or, Option.bind_some, find?_moved hnew, if_true]
  · have hnone : (positional ++ [v])[i]? = none := by
      rw [List.getElem?_eq_none_iff, List.length_append, List.length_singleton]
      omega
    rw [hnone, List.getElem?_eq_none (Nat.le_of_lt hgt), Option.none_or, Option.none_or]
    refine Option.bind_congr fun key hkey => ?_
    have hne : key ≠ name := by
      rintro rfl
      have := (List.getElem?_inj (List.getElem?_eq_some_iff.mp hkey).1 hnodup).mp
        (hkey.trans hname.symm)
      omega
    rw [find?_moved hnew, if_neg hne]

/-- **Binding treats an argument alike, by position and by keyword**: it fails with the same fault,
or gives parameters that cannot be told apart. -/
theorem bind_alike (hnodup : names.Nodup) (hname : names[positional.length]? = some name)
    (hnew : name ∉ Entries.keys (before ++ after)) :
    (∃ fault, bind names ⟨positional ++ [v], before ++ after⟩ = .error fault ∧
      bind names ⟨positional, before ++ (name, v) :: after⟩ = .error fault) ∨
    ∃ p q, bind names ⟨positional ++ [v], before ++ after⟩ = .ok p ∧
      bind names ⟨positional, before ++ (name, v) :: after⟩ = .ok q ∧ p.Alike q := by
  have hroom := (List.getElem?_eq_some_iff.mp hname).1
  have hfew : ¬ names.length < positional.length + 1 := by omega
  have hfewer : ¬ names.length < positional.length := by omega
  have hchecked := forM_checkKeyword_moved (v := v) hnodup hname hnew
  simp only [bind, List.length_append, List.length_singleton, if_neg hfew, if_neg hfewer, hchecked]
  cases (Entries.keys (before ++ (name, v) :: after)).forM
      (checkKeyword names positional.length) with
  | error fault => exact .inl ⟨fault, rfl, rfl⟩
  | ok _ => exact .inr ⟨_, _, rfl, rfl, alike_moved hnodup hname hnew⟩

end Params

/-! ### What is made of arguments -/

theorem Matcher.Builtin.nodup_params (b : Builtin) : b.params.Nodup := by
  cases b <;> simp [params]

theorem Generator.Builtin.nodup_params (b : Generator.Builtin) : b.params.Nodup := by
  cases b <;> decide

/-- A matcher is drafted from its parameters alone. -/
theorem Matcher.Draft.ofParams_congr {p q : Params} (h : p.Alike q) (now : Moment) (b : Builtin) :
    ofParams now p b = ofParams now q b := by
  cases b with
  | shape s => rfl
  | textLike => simp only [ofParams, textLike, h.text?, h.required, h.flag?]
  | textWith => simp only [ofParams, textWith, h.text?, h.required, h.flag?]
  | numberBeyond side => simp only [ofParams, numberBeyond, h.number?, h.required]
  | numberWithin => simp only [ofParams, numberWithin, h.number?, h.required]
  | listOf rule => simp only [ofParams, listOf, h.ruleSize, h.get?]
  | listWithin => simp only [ofParams, listWithin, h.size?, h.required, h.get?]
  | listEach rule => simp only [ofParams, h.require, h.ruleSize]
  | date => rfl
  | dateBeyond side => simp only [ofParams, dateBeyond, h.text?]
  | dateWithin => simp only [ofParams, dateWithin, h.text?, h.required]

/-- What a generator chooses from is told by its parameters alone. -/
theorem Generator.Builtin.ofParams_congr {p q : Params} (h : p.Alike q) (b : Generator.Builtin) :
    ofParams p b = ofParams q b := by
  cases b with
  | firstName => simp only [ofParams, firstNames, h.text?]
  | lastName => rfl
  | number => simp only [ofParams, integers, h.integer?]
  | identifier => rfl
  | text => simp only [ofParams, letters, h.size?, h.text?]
  | choice => simp only [ofParams, options, h.require]
  | bool => rfl

section

variable {positional : List Value} {before after : Fields} {name : String}

theorem Matcher.Draft.ofArguments_moved {b : Builtin}
    (hname : b.params[positional.length]? = some name)
    (hnew : name ∉ Entries.keys (before ++ after)) (v : Value) (now : Moment) :
    ofArguments now ⟨positional ++ [v], before ++ after⟩ b =
      ofArguments now ⟨positional, before ++ (name, v) :: after⟩ b := by
  unfold ofArguments
  rcases Params.bind_alike (v := v) b.nodup_params hname hnew with
    ⟨fault, hbind, hbind'⟩ | ⟨p, q, hbind, hbind', halike⟩
  · rw [hbind, hbind']
  · rw [hbind, hbind']
    exact ofParams_congr halike now b

theorem Generator.Builtin.template_moved {b : Generator.Builtin}
    (hname : b.params[positional.length]? = some name)
    (hnew : name ∉ Entries.keys (before ++ after)) (v : Value) :
    b.template ⟨positional ++ [v], before ++ after⟩ =
      b.template ⟨positional, before ++ (name, v) :: after⟩ := by
  unfold template
  rcases Params.bind_alike (v := v) b.nodup_params hname hnew with
    ⟨fault, hbind, hbind'⟩ | ⟨p, q, hbind, hbind', halike⟩
  · rw [hbind, hbind']
  · rw [hbind, hbind']
    exact ofParams_congr halike b

/-- **An argument may be given by position or by keyword.**

Take any arguments by position, fewer than there are parameters, any value, null included, and any
keywords but the name of the parameter behind the positions.  Giving the value as one more position
and giving it under that name, wherever among the keywords, come to the same with every matcher and
every generator that is always there: the same fault, or the same matcher, or a generator that
makes the same value wherever its numbers come from. -/
theorem position_or_keyword (hnew : name ∉ Entries.keys (before ++ after)) (v : Value) :
    (∀ (b : Matcher.Builtin) (now : Moment), b.params[positional.length]? = some name →
      Matchers.standard.construct now b.name ⟨positional ++ [v], before ++ after⟩ =
        Matchers.standard.construct now b.name ⟨positional, before ++ (name, v) :: after⟩) ∧
    ∀ (b : Generator.Builtin) (σ : Type) (chance : Chance σ),
      b.params[positional.length]? = some name →
      (Generators.standard chance).generate b.name ⟨positional ++ [v], before ++ after⟩ =
        (Generators.standard chance).generate b.name
          ⟨positional, before ++ (name, v) :: after⟩ := by
  constructor
  · intro b now hname
    have hfind : Matchers.standard.find? b.name = some (.builtin b) :=
      Matchers.find?_standard_iff.mpr ⟨b, rfl, rfl⟩
    rw [Matchers.construct_builtin hfind, Matchers.construct_builtin hfind,
      Matcher.Draft.ofArguments_moved hname hnew]
  · intro b σ chance hname
    have hfind : (Generators.standard chance).find? b.name = some (b.generator chance) :=
      Generators.find?_standard_iff.mpr ⟨b, rfl, rfl⟩
    funext state
    unfold Generators.generate
    simp only [hfind, Generator.Builtin.generator, Generator.Builtin.template_moved hname hnew]

/-- The upper limit of a range is given by position or by its name: five makes the same matcher
either way, and null, which counts as none, the same fault. -/
theorem position_or_keyword_upper_limit :
    let build := Matchers.standard.construct ⟨0, 0, 0⟩ "AnyNumberInRange"
    "max_number" ∉ Entries.keys ([] ++ [] : Fields) ∧
      build ⟨[Value.int 1] ++ [Value.int 5], [] ++ []⟩ =
        build ⟨[Value.int 1], [] ++ [("max_number", Value.int 5)]⟩ ∧
      build ⟨[Value.int 1] ++ [Value.null], [] ++ []⟩ =
        build ⟨[Value.int 1], [] ++ [("max_number", Value.null)]⟩ ∧
      build ⟨[Value.int 1], [] ++ [("max_number", Value.null)]⟩ =
        .error (.call .matcher "AnyNumberInRange" (.missingArgument "max_number")) := by
  intro build
  have hnew : "max_number" ∉ Entries.keys ([] ++ [] : Fields) := by simp [Entries.keys]
  refine ⟨hnew, ?_, ?_, ?_⟩
  · exact (position_or_keyword hnew (.int 5)).1 .numberWithin ⟨0, 0, 0⟩ rfl
  · exact (position_or_keyword hnew .null).1 .numberWithin ⟨0, 0, 0⟩ rfl
  · show Matchers.standard.construct ⟨0, 0, 0⟩ "AnyNumberInRange" _ = _
    cbv

end

end Docweave
