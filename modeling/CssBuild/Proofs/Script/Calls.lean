import CssBuild.Document
import CssBuild.Proofs.Decimal.Printing
import CssBuild.Proofs.Results

/-!
# CssBuild.Proofs.Script.Calls

Where calls are kept.

1. Whether a call is kept is decided on its dotted path. The path of a call
   inside the plugins is in the plugins, and so is a path that only looks like
   it: with empty keys before the plugins, or with a key that has the dot in it
   (`kept_root`).
2. The value of an expression is the tree that it writes, each call with its
   own text, if all of its calls are kept (`value_eq_ok`).
3. So a module is read only if its calls are inside the plugins or disguised
   (`ofScript_calls`).
-/

namespace CssBuild

namespace Script

/-! ## Steps to a call -/

/-- A step into an expression. -/
inductive Step where
  /-- To the value of a member. -/
  | member (key : Key)
  /-- To an item of an array. -/
  | item (i : Nat)
deriving DecidableEq

/-- The key that a step adds to a path. -/
def Step.name : Step → Except Fault String
  | member key => key.value
  | item i => .ok (KeyPath.index i)

/-- Whether an expression has a call where some steps lead to. -/
inductive Expr.CallAt : Expr → List Step → Prop where
  | call {start text : List Char} : CallAt (.call start text) []
  | parens {start : List Char} {inner : Expr} {steps : List Step} (h : CallAt inner steps) :
    CallAt (.parens start inner) steps
  | member {start : List Char} {members : List Member} {key : Key} {value : Expr}
    {steps : List Step} (hmem : Member.pair key value ∈ members) (h : CallAt value steps) :
    CallAt (.object start members) (.member key :: steps)
  | item {start : List Char} {items : List Expr} {i : Nat} {item : Expr} {steps : List Step}
    (hitem : items[i]? = some item) (h : CallAt item steps) :
    CallAt (.array start items) (.item i :: steps)

/-- Whether steps lead into the value of the plugins at the root. -/
def InPlugins (steps : List Step) : Prop :=
  ∃ key next rest, steps = .member key :: next :: rest ∧ key.value = .ok plugins

/-- Whether steps make a path that looks as if it led into the plugins at the root: behind empty
keys, or by a key that goes on after a dot. -/
def Disguised (steps : List Step) : Prop :=
  ∃ empties key name rest, steps = empties ++ .member key :: rest ∧
    (∀ step ∈ empties, step.name = .ok "") ∧ key.value = .ok name ∧
    (isPluginPath name = true ∨ name = plugins ∧ empties ≠ [] ∧ rest ≠ [])

/-- Whether the path that steps make after another path is one of the plugins. -/
def Kept (path : String) : List Step → Prop
  | [] => isPluginPath path = true
  | step :: rest => ∃ name, step.name = .ok name ∧ Kept (KeyPath.child path name) rest

/-! ## Paths of the plugins -/

theorem isPluginPath_iff {path : String} :
    isPluginPath path = true ↔ plugins.toList ++ ['.'] <+: path.toList := by
  rw [isPluginPath, List.isPrefixOf_iff_prefix, String.toList_append]
  rfl

theorem toList_child {path : String} (h : path ≠ "") (name : String) :
    (KeyPath.child path name).toList = path.toList ++ '.' :: name.toList := by
  rw [KeyPath.child, if_neg h, String.toList_append, String.toList_append, List.append_assoc]
  rfl

theorem child_ne {path : String} (h : path ≠ "") (name : String) : KeyPath.child path name ≠ "" := by
  rw [Ne, ← String.toList_eq_nil_iff, toList_child h]
  exact List.append_ne_nil_of_right_ne_nil _ (List.cons_ne_nil _ _)

theorem ne_of_isPluginPath {path : String} (h : isPluginPath path = true) : path ≠ "" := by
  rintro rfl
  exact absurd h (by decide)

theorem isPluginPath_child {path : String} (h : isPluginPath path = true) (name : String) :
    isPluginPath (KeyPath.child path name) = true := by
  rw [isPluginPath_iff] at h ⊢
  rw [toList_child (ne_of_isPluginPath (isPluginPath_iff.2 h))]
  exact h.trans (List.prefix_append _ _)

theorem isPluginPath_child_plugins (name : String) :
    isPluginPath (KeyPath.child plugins name) = true := by
  rw [isPluginPath_iff, toList_child (by decide)]
  exact ⟨name.toList, by simp⟩

/-- Whether a path is outside the plugins with all that comes after it. -/
structure Outside (path : String) : Prop where
  some : path ≠ ""
  other : path ≠ plugins
  outside : isPluginPath path = false

/-- A path that is not the start of a path of the plugins is outside, and so is all after it. -/
theorem Outside.child {path : String} (h : Outside path) (name : String) :
    Outside (KeyPath.child path name) := by
  have hdot : '.' ∉ plugins.toList := by decide
  have htext := toList_child h.some name
  refine ⟨child_ne h.some name, fun heq => ?_, Bool.eq_false_iff.2 fun hplugin => ?_⟩
  · refine hdot ?_
    rw [← heq, htext]
    exact List.mem_append_right _ List.mem_cons_self
  · rw [isPluginPath_iff, htext] at hplugin
    obtain hlonger | hshorter := List.prefix_or_prefix_of_prefix hplugin (List.prefix_append _ _)
    · exact Bool.eq_false_iff.1 h.outside (isPluginPath_iff.2 hlonger)
    · obtain hsame | ⟨after, hafter⟩ := List.prefix_concat_iff.1 hshorter
      · exact Bool.eq_false_iff.1 h.outside (isPluginPath_iff.2 (hsame ▸ List.prefix_refl _))
      · cases after with
        | nil =>
          rw [List.append_nil] at hafter
          exact h.other (String.toList_inj.1 hafter)
        | cons c rest =>
          -- The dot after the path would be inside the name of the plugins.
          rw [← hafter, List.append_assoc, List.prefix_append_right_inj, List.cons_append,
            List.cons_prefix_cons] at hplugin
          refine hdot ?_
          rw [← hafter, ← hplugin.1]
          exact List.mem_append_right _ List.mem_cons_self

theorem outside_index (i : Nat) : Outside (KeyPath.index i) := by
  have htext : (KeyPath.index i).toList = Nat.toDigits 10 i := String.toList_ofList
  obtain ⟨c, rest, hdigits⟩ := List.exists_cons_of_ne_nil (Nat.toDigits_ne_nil (n := i) (b := 10))
  have hc : c.isDigit = true :=
    Nat.isDigit_of_mem_toDigits (by decide) (by decide) (hdigits ▸ List.mem_cons_self)
  rw [hdigits] at htext
  have hfirst : c ≠ 'p' := by
    rintro rfl
    exact absurd hc (by decide)
  refine ⟨fun h => ?_, fun h => ?_, Bool.eq_false_iff.2 fun h => ?_⟩
  · rw [h] at htext
    cases htext
  · rw [h] at htext
    exact hfirst (List.cons.inj htext).1.symm
  · rw [isPluginPath_iff, htext] at h
    exact hfirst (List.cons_prefix_cons.1 h).1.symm

/-! ## Which paths are kept -/

/-- Whether a key can be read. -/
def Step.Named (step : Step) : Prop := ∃ name, step.name = .ok name

theorem Kept.named {path : String} {steps : List Step} (h : Kept path steps) :
    ∀ step ∈ steps, step.Named := by
  induction steps generalizing path with
  | nil => exact List.forall_mem_nil _
  | cons step rest ih =>
    obtain ⟨name, hname, hrest⟩ := h
    exact List.forall_mem_cons.2 ⟨⟨name, hname⟩, ih hrest⟩

theorem kept_of_isPluginPath {path : String} (h : isPluginPath path = true) {steps : List Step}
    (hnamed : ∀ step ∈ steps, step.Named) : Kept path steps := by
  induction steps generalizing path with
  | nil => exact h
  | cons step rest ih =>
    obtain ⟨⟨name, hname⟩, hrest⟩ := List.forall_mem_cons.1 hnamed
    exact ⟨name, hname, ih (isPluginPath_child h name) hrest⟩

theorem kept_plugins {steps : List Step} (hsome : steps ≠ [])
    (hnamed : ∀ step ∈ steps, step.Named) : Kept plugins steps := by
  obtain ⟨step, rest, rfl⟩ := List.exists_cons_of_ne_nil hsome
  obtain ⟨⟨name, hname⟩, hrest⟩ := List.forall_mem_cons.1 hnamed
  exact ⟨name, hname, kept_of_isPluginPath (isPluginPath_child_plugins name) hrest⟩

theorem Outside.not_kept {path : String} (h : Outside path) (steps : List Step) :
    ¬ Kept path steps := by
  induction steps generalizing path with
  | nil => exact Bool.eq_false_iff.1 h.outside
  | cons step rest ih =>
    rintro ⟨name, -, hrest⟩
    exact ih (h.child name) hrest

theorem Disguised.cons {first : Step} {rest : List Step} (hfirst : first.name = .ok "")
    (h : InPlugins rest ∨ Disguised rest) : Disguised (first :: rest) := by
  obtain ⟨key, next, more, rfl, hkey⟩ | ⟨empties, key, name, more, rfl, hempties, hname, hpath⟩ := h
  · exact ⟨[first], key, plugins, next :: more, rfl,
      fun step hstep => List.mem_singleton.1 hstep ▸ hfirst, hkey,
      .inr ⟨rfl, List.cons_ne_nil _ _, List.cons_ne_nil _ _⟩⟩
  · exact ⟨first :: empties, key, name, more, rfl, List.forall_mem_cons.2 ⟨hfirst, hempties⟩, hname,
      hpath.imp_right fun h => ⟨h.1, List.cons_ne_nil _ _, h.2.2⟩⟩

/-- Steps make a path of the plugins if they lead into the plugins or look like it. -/
theorem of_kept_root {steps : List Step} (h : Kept "" steps) :
    InPlugins steps ∨ Disguised steps := by
  induction steps with
  | nil => exact absurd (show isPluginPath "" = true from h) (by decide)
  | cons step rest ih =>
    obtain ⟨name, hname, hrest⟩ := h
    rw [KeyPath.child, if_pos rfl] at hrest
    by_cases hempty : name = ""
    · subst hempty
      exact .inr (Disguised.cons hname (ih hrest))
    · cases step with
      | item i =>
        obtain rfl := Except.ok.inj hname
        exact absurd hrest ((outside_index i).not_kept rest)
      | member key =>
        by_cases hplugin : isPluginPath name = true
        · exact .inr ⟨[], key, name, rest, rfl, List.forall_mem_nil _, hname, .inl hplugin⟩
        · by_cases hsame : name = plugins
          · subst hsame
            cases rest with
            | nil => exact absurd hrest hplugin
            | cons next more => exact .inl ⟨key, next, more, rfl, hname⟩
          · have houtside : Outside name := ⟨hempty, hsame, Bool.eq_false_iff.2 hplugin⟩
            exact absurd hrest (houtside.not_kept rest)

theorem kept_append {empties : List Step} (hempties : ∀ step ∈ empties, step.name = .ok "")
    {steps : List Step} (h : Kept "" steps) : Kept "" (empties ++ steps) := by
  induction empties with
  | nil => exact h
  | cons first rest ih =>
    obtain ⟨hfirst, hrest⟩ := List.forall_mem_cons.1 hempties
    exact ⟨"", hfirst, ih hrest⟩

theorem kept_root {steps : List Step} (hnamed : ∀ step ∈ steps, step.Named) :
    Kept "" steps ↔ InPlugins steps ∨ Disguised steps := by
  refine ⟨of_kept_root, fun h => ?_⟩
  obtain ⟨key, next, rest, rfl, hkey⟩ | ⟨empties, key, name, rest, rfl, hempties, hname, hpath⟩ := h
  · exact ⟨plugins, hkey,
      kept_plugins (List.cons_ne_nil _ _) fun step hstep => hnamed step (List.mem_cons_of_mem _ hstep)⟩
  · refine kept_append hempties ⟨name, hname, ?_⟩
    have hrest : ∀ step ∈ rest, step.Named := fun step hstep =>
      hnamed step (List.mem_append_right _ (List.mem_cons_of_mem _ hstep))
    obtain hplugin | ⟨rfl, -, hsome⟩ := hpath
    · exact kept_of_isPluginPath hplugin hrest
    · exact kept_plugins hsome hrest

/-! ## What an expression writes -/

mutual

/-- Whether an expression writes a tree: with an item for each of its items, an entry for each of
its members, and the text of each of its calls. -/
inductive Expr.Writes : Expr → Json → Prop where
  | object {start : List Char} {members : List Member} {entries : List (String × Json)}
    (h : MembersWrite members entries) : Expr.Writes (.object start members) (.object entries)
  | array {start : List Char} {items : List Expr} {found : List Json} (h : ItemsWrite items found) :
    Expr.Writes (.array start items) (.array found)
  | string {start : List Char} {pieces : List Piece} {text : String}
    (h : stringValue start pieces = .ok text) : Expr.Writes (.string start pieces) (.string text)
  | number {start text : List Char} {n : Number} (h : numberValue start text = .ok n) :
    Expr.Writes (.number start text) (.number n)
  | signed {start text operator : List Char} {operand : Expr} {n : Number}
    (h : signedValue start text operator operand = .ok n) :
    Expr.Writes (.signed start text operator operand) (.number n)
  | bool (b : Bool) : Expr.Writes (.bool b) (.bool b)
  | absent (word : List Char) : Expr.Writes (.absent word) .null
  | parens {start : List Char} {inner : Expr} {tree : Json} (h : Expr.Writes inner tree) :
    Expr.Writes (.parens start inner) tree
  | call (start text : List Char) : Expr.Writes (.call start text) (.string (String.ofList text))

/-- Whether the items of an array write some trees, one each. -/
inductive ItemsWrite : List Expr → List Json → Prop where
  | nil : ItemsWrite [] []
  | cons {item : Expr} {tree : Json} {rest : List Expr} {more : List Json} (h : item.Writes tree)
    (hrest : ItemsWrite rest more) : ItemsWrite (item :: rest) (tree :: more)

/-- Whether the members of an object write some entries, one each. -/
inductive MembersWrite : List Member → List (String × Json) → Prop where
  | nil : MembersWrite [] []
  | cons {key : Key} {name : String} {value : Expr} {tree : Json} {rest : List Member}
    {more : List (String × Json)} (hkey : key.value = .ok name) (h : value.Writes tree)
    (hrest : MembersWrite rest more) :
    MembersWrite (.pair key value :: rest) ((name, tree) :: more)

end

/-- Whether the calls of an expression are kept at a path. -/
def Expr.CallsKept (path : String) (e : Expr) : Prop := ∀ steps, e.CallAt steps → Kept path steps

/-- Whether the calls of a member's value are kept in an object at a path. -/
def Member.CallsKept (path : String) (member : Member) : Prop :=
  ∀ key value, member = .pair key value → ∀ steps, value.CallAt steps → Kept path (.member key :: steps)

/-- Whether the calls of items from some number on are kept in an array at a path. -/
def ItemsKept (path : String) (start : Nat) (items : List Expr) : Prop :=
  ∀ (i : Nat) (item : Expr), items[i]? = some item →
    item.CallsKept (KeyPath.child path (KeyPath.index (start + i)))

theorem callsKept_call {path : String} {start text : List Char} :
    (Expr.call start text).CallsKept path ↔ isPluginPath path = true := by
  constructor
  · exact fun h => h [] .call
  · rintro h steps ⟨⟩
    exact h

theorem callsKept_array {path : String} {start : List Char} {items : List Expr} :
    (Expr.array start items).CallsKept path ↔ ItemsKept path 0 items := by
  constructor
  · intro h i item hitem steps hat
    obtain ⟨name, hname, hkept⟩ := h _ (.item hitem hat)
    rw [Nat.zero_add]
    exact Except.ok.inj hname ▸ hkept
  · rintro h _ (_ | _ | _ | ⟨hitem, hat⟩)
    refine ⟨_, rfl, ?_⟩
    have hkept := h _ _ hitem _ hat
    rwa [Nat.zero_add] at hkept

theorem itemsKept_cons {path : String} {start : Nat} {item : Expr} {rest : List Expr} :
    ItemsKept path start (item :: rest) ↔
      item.CallsKept (KeyPath.child path (KeyPath.index start)) ∧ ItemsKept path (start + 1) rest := by
  constructor
  · intro h
    refine ⟨h 0 item rfl, fun i other hother => ?_⟩
    rw [Nat.add_assoc, Nat.add_comm 1]
    exact h (i + 1) other hother
  · rintro ⟨hfirst, hrest⟩ (_ | i) other hother
    · obtain rfl := Option.some.inj hother
      exact hfirst
    · rw [Nat.add_comm i, ← Nat.add_assoc]
      exact hrest i other hother

theorem callsKept_object {path : String} {start : List Char} {members : List Member} :
    (Expr.object start members).CallsKept path ↔
      ∀ member ∈ members, member.CallsKept path := by
  constructor
  · rintro h _ hmem key value rfl steps hat
    exact h _ (.member hmem hat)
  · rintro h _ (_ | _ | ⟨hmem, hat⟩ | _)
    exact h _ hmem _ _ rfl _ hat

theorem callsKept_pair {path : String} {key : Key} {name : String} (hname : key.value = .ok name)
    {value : Expr} : (Member.pair key value).CallsKept path ↔
      value.CallsKept (KeyPath.child path name) := by
  constructor
  · intro h steps hat
    obtain ⟨other, hother, hkept⟩ := h key value rfl steps hat
    exact Except.ok.inj (hother.symm.trans hname) ▸ hkept
  · rintro h _ _ heq steps hat
    obtain ⟨rfl, rfl⟩ := Member.pair.inj heq
    exact ⟨name, hname, h steps hat⟩

mutual

/-- The value of an expression is what it writes, if all of its calls are kept. -/
theorem Expr.value_eq_ok (path : String) : (e : Expr) → (tree : Json) →
    (e.value path = .ok tree ↔ e.Writes tree ∧ e.CallsKept path)
  | .object start members, tree => by
    simp only [Expr.value, bind_eq_ok, callsKept_object, membersValue_eq_ok path members]
    constructor
    · rintro ⟨found, ⟨hfound, hkept⟩, ⟨⟩⟩
      exact ⟨.object hfound, hkept⟩
    · intro ⟨.object hfound, hkept⟩
      exact ⟨_, ⟨hfound, hkept⟩, rfl⟩
  | .array start items, tree => by
    simp only [Expr.value, bind_eq_ok, callsKept_array, itemsValue_eq_ok path 0 items]
    constructor
    · rintro ⟨found, ⟨hfound, hkept⟩, ⟨⟩⟩
      exact ⟨.array hfound, hkept⟩
    · intro ⟨.array hfound, hkept⟩
      exact ⟨_, ⟨hfound, hkept⟩, rfl⟩
  | .string start pieces, tree => by
    have hkept : (Expr.string start pieces).CallsKept path := fun _ hat => nomatch hat
    rw [Expr.value, bind_eq_ok, and_iff_left hkept]
    constructor
    · rintro ⟨text, htext, ⟨⟩⟩
      exact .string htext
    · intro (.string htext)
      exact ⟨_, htext, rfl⟩
  | .number start text, tree => by
    have hkept : (Expr.number start text).CallsKept path := fun _ hat => nomatch hat
    rw [Expr.value, bind_eq_ok, and_iff_left hkept]
    constructor
    · rintro ⟨n, hn, ⟨⟩⟩
      exact .number hn
    · intro (.number hn)
      exact ⟨_, hn, rfl⟩
  | .signed start text operator operand, tree => by
    have hkept : (Expr.signed start text operator operand).CallsKept path := fun _ hat => nomatch hat
    rw [Expr.value, bind_eq_ok, and_iff_left hkept]
    constructor
    · rintro ⟨n, hn, ⟨⟩⟩
      exact .signed hn
    · intro (.signed hn)
      exact ⟨_, hn, rfl⟩
  | .bool b, tree => by
    have hkept : (Expr.bool b).CallsKept path := fun _ hat => nomatch hat
    rw [Expr.value, and_iff_left hkept]
    constructor
    · rintro ⟨⟩
      exact .bool b
    · rintro ⟨⟩
      rfl
  | .absent word, tree => by
    have hkept : (Expr.absent word).CallsKept path := fun _ hat => nomatch hat
    rw [Expr.value, and_iff_left hkept]
    constructor
    · rintro ⟨⟩
      exact .absent word
    · rintro ⟨⟩
      rfl
  | .parens start inner, tree => by
    rw [Expr.value, Expr.value_eq_ok path inner tree]
    constructor
    · exact fun ⟨hwrites, hkept⟩ => ⟨.parens hwrites, fun _ (.parens hat) => hkept _ hat⟩
    · exact fun ⟨.parens hwrites, hkept⟩ => ⟨hwrites, fun _ hat => hkept _ (.parens hat)⟩
  | .call start text, tree => by
    rw [Expr.value, callsKept_call]
    split
    · next h =>
      rw [and_iff_left h]
      constructor
      · rintro ⟨⟩
        exact .call start text
      · rintro ⟨⟩
        rfl
    · next h => exact iff_of_false (nomatch ·) fun hkept => h hkept.2
  | .identifier _ _, _ | .property _ _ _, _ | .assignment _ _ _, _ | .other _ _, _ =>
    iff_of_false (nomatch ·) fun h => nomatch h.1

theorem itemsValue_eq_ok (path : String) (i : Nat) : (items : List Expr) → (found : List Json) →
    (itemsValue path i items = .ok found ↔ ItemsWrite items found ∧ ItemsKept path i items)
  | [], found => by
    rw [itemsValue]
    constructor
    · rintro ⟨⟩
      exact ⟨.nil, fun _ _ hitem => nomatch hitem⟩
    · rintro ⟨⟨⟩, -⟩
      rfl
  | item :: rest, found => by
    simp only [itemsValue, bind_eq_ok, itemsKept_cons, Expr.value_eq_ok _ item,
      itemsValue_eq_ok path (i + 1) rest]
    constructor
    · rintro ⟨first, ⟨hfirst, hkept⟩, more, ⟨hmore, hrest⟩, ⟨⟩⟩
      exact ⟨.cons hfirst hmore, hkept, hrest⟩
    · intro ⟨.cons hfirst hmore, hkept, hrest⟩
      exact ⟨_, ⟨hfirst, hkept⟩, _, ⟨hmore, hrest⟩, rfl⟩

theorem membersValue_eq_ok (path : String) : (members : List Member) →
    (found : List (String × Json)) →
    (membersValue path members = .ok found ↔ MembersWrite members found ∧
      ∀ member ∈ members, member.CallsKept path)
  | [], found => by
    rw [membersValue]
    constructor
    · rintro ⟨⟩
      exact ⟨.nil, List.forall_mem_nil _⟩
    · rintro ⟨⟨⟩, -⟩
      rfl
  | .pair key value :: rest, found => by
    simp only [membersValue, memberValue, bind_eq_ok, List.forall_mem_cons,
      Expr.value_eq_ok _ value, membersValue_eq_ok path rest]
    constructor
    · rintro ⟨_, ⟨name, hname, tree, ⟨htree, hkept⟩, ⟨⟩⟩, more, ⟨hmore, hrest⟩, ⟨⟩⟩
      exact ⟨.cons hname htree hmore, (callsKept_pair hname).2 hkept, hrest⟩
    · intro ⟨.cons hname htree hmore, hkept, hrest⟩
      exact ⟨_, ⟨_, hname, _, ⟨htree, (callsKept_pair hname).1 hkept⟩, rfl⟩, _, ⟨hmore, hrest⟩, rfl⟩
  | .spread _ :: _, _ | .other _ _ :: _, _ => iff_of_false (nomatch ·) fun h => nomatch h.1

end

/-! ## Parts of what is written -/

/-- Whether an expression has another one where some steps lead to. -/
inductive Expr.Holds (inner : Expr) : List Step → Expr → Prop where
  | refl : Holds inner [] inner
  | parens {start : List Char} {e : Expr} {steps : List Step} (h : Holds inner steps e) :
    Holds inner steps (.parens start e)
  | member {start : List Char} {members : List Member} {key : Key} {value : Expr}
    {steps : List Step} (hmem : Member.pair key value ∈ members) (h : Holds inner steps value) :
    Holds inner (.member key :: steps) (.object start members)
  | item {start : List Char} {items : List Expr} {i : Nat} {item : Expr} {steps : List Step}
    (hitem : items[i]? = some item) (h : Holds inner steps item) :
    Holds inner (.item i :: steps) (.array start items)

/-- Whether a tree has another one where some steps lead to. -/
def TreeHolds (part : Json) : List Step → Json → Prop
  | [], tree => tree = part
  | .member key :: rest, tree => ∃ entries name value, tree = .object entries ∧
      key.value = .ok name ∧ (name, value) ∈ entries ∧ TreeHolds part rest value
  | .item i :: rest, tree => ∃ items value, tree = .array items ∧ items[i]? = some value ∧
      TreeHolds part rest value

theorem exists_writes_item {items : List Expr} {found : List Json} (h : ItemsWrite items found)
    {i : Nat} {item : Expr} (hitem : items[i]? = some item) :
    ∃ tree, found[i]? = some tree ∧ item.Writes tree := by
  induction i generalizing items found with
  | zero =>
    cases h with
    | nil => cases hitem
    | cons hfirst hrest => exact ⟨_, rfl, Option.some.inj hitem ▸ hfirst⟩
  | succ i ih =>
    cases h with
    | nil => cases hitem
    | cons hfirst hrest => exact ih hrest hitem

theorem exists_writes_member {members : List Member} {entries : List (String × Json)}
    (h : MembersWrite members entries) {key : Key} {value : Expr}
    (hmem : Member.pair key value ∈ members) :
    ∃ name tree, key.value = .ok name ∧ (name, tree) ∈ entries ∧ value.Writes tree := by
  induction members generalizing entries with
  | nil => cases hmem
  | cons first rest ih =>
    obtain - | ⟨hname, htree, hrest⟩ := h
    obtain heq | hmem := List.mem_cons.1 hmem
    · obtain ⟨rfl, rfl⟩ := Member.pair.inj heq
      exact ⟨_, _, hname, List.mem_cons_self, htree⟩
    · obtain ⟨name, tree, hname, hentry, hvalue⟩ := ih hrest hmem
      exact ⟨name, tree, hname, List.mem_cons_of_mem _ hentry, hvalue⟩

/-- What an expression writes has a part for each expression inside of it. -/
theorem Expr.Holds.exists_writes {inner e : Expr} {steps : List Step} (h : inner.Holds steps e)
    {tree : Json} (hwrites : e.Writes tree) :
    ∃ part, inner.Writes part ∧ TreeHolds part steps tree := by
  induction h generalizing tree with
  | refl => exact ⟨tree, hwrites, rfl⟩
  | parens _ ih =>
    cases hwrites with
    | parens hinner => exact ih hinner
  | member hmem _ ih =>
    cases hwrites with
    | object hmembers =>
      obtain ⟨name, value, hname, hentry, hvalue⟩ := exists_writes_member hmembers hmem
      obtain ⟨part, hpart, hholds⟩ := ih hvalue
      exact ⟨part, hpart, _, name, value, rfl, hname, hentry, hholds⟩
  | item hitem _ ih =>
    cases hwrites with
    | array hitems =>
      obtain ⟨value, hfound, hvalue⟩ := exists_writes_item hitems hitem
      obtain ⟨part, hpart, hholds⟩ := ih hvalue
      exact ⟨part, hpart, _, value, rfl, hfound, hholds⟩

/-! ## Calls of a module -/

/-- The keys on the way to a call can be read if the expression around it writes a tree. -/
theorem Expr.CallAt.named {e : Expr} {steps : List Step} (hat : e.CallAt steps) {tree : Json}
    (h : e.Writes tree) : ∀ step ∈ steps, step.Named := by
  induction hat generalizing tree with
  | call => exact List.forall_mem_nil _
  | parens _ ih =>
    cases h with
    | parens hinner => exact ih hinner
  | member hmem _ ih =>
    cases h with
    | object hmembers =>
      obtain ⟨name, inner, hname, -, hinner⟩ := exists_writes_member hmembers hmem
      exact List.forall_mem_cons.2 ⟨⟨name, hname⟩, ih hinner⟩
  | item hitem _ ih =>
    cases h with
    | array hitems =>
      obtain ⟨inner, -, hinner⟩ := exists_writes_item hitems hitem
      exact List.forall_mem_cons.2 ⟨⟨_, rfl⟩, ih hinner⟩

/-- The tree of a module is what its expression writes, if each call is inside the plugins or looks
as if it were. -/
theorem value_root_eq_ok {e : Expr} {tree : Json} : e.value "" = .ok tree ↔ e.Writes tree ∧
    ∀ steps, e.CallAt steps → InPlugins steps ∨ Disguised steps := by
  rw [Expr.value_eq_ok]
  exact and_congr_right fun hwrites => forall₂_congr fun steps hat => kept_root (hat.named hwrites)

end Script

open Script

/-- A module is read as what its expression writes, if each call is inside the plugins or disguised
as if it were; a call anywhere else makes the reader fail. -/
theorem Document.ofScript_calls {text : String} {statements : List Statement} {value : Expr}
    (module : readModule text.toList = .ok statements) (exports : exported? statements = some value)
    (source? : Option Path) :
    (∀ document, ofScript text source? = .ok document ↔
      (∃ tree, value.Writes tree ∧ document = ofTree tree) ∧
        ∀ steps, value.CallAt steps → InPlugins steps ∨ Disguised steps) ∧
    ∀ steps, value.CallAt steps → ¬ InPlugins steps → ¬ Disguised steps →
      ∃ place details, ofScript text source? = .error (.atPlace source? place details) := by
  have hread : readTree text.toList = value.value "" := by
    rw [readTree, module, ok_bind, exports]
  constructor
  · intro document
    have hvalue : ofScript text source? = .ok document ↔
        ∃ tree, value.value "" = .ok tree ∧ document = ofTree tree := by
      rw [ofScript, hread]
      cases value.value "" with
      | error fault => simp
      | ok tree => simp [eq_comm]
    rw [hvalue]
    constructor
    · rintro ⟨tree, htree, hdocument⟩
      obtain ⟨hwrites, hcalls⟩ := value_root_eq_ok.1 htree
      exact ⟨⟨tree, hwrites, hdocument⟩, hcalls⟩
    · rintro ⟨⟨tree, hwrites, hdocument⟩, hcalls⟩
      exact ⟨tree, value_root_eq_ok.2 ⟨hwrites, hcalls⟩, hdocument⟩
  · intro steps hat hplugins hdisguised
    rw [ofScript, hread]
    cases hvalue : value.value "" with
    | error fault => exact ⟨_, _, rfl⟩
    | ok tree =>
      obtain hin | hlike := (value_root_eq_ok.1 hvalue).2 steps hat
      · exact absurd hin hplugins
      · exact absurd hlike hdisguised

/-- A call inside the plugins is kept, and so is one under a key with a dot; a call that is the
value of the plugins is not. -/
theorem Document.ofScript_calls_dotted :
    ofScript "module.exports = \x7bplugins: [f(1)], 'plugins.x': f(2)\x7d;" none =
      .ok (ofTree (.object [("plugins", .array [.string "f(1)"]), ("plugins.x", .string "f(2)")])) ∧
    ∃ place details, ofScript "module.exports = \x7bplugins: f(1)\x7d;" none =
      .error (.atPlace none place details) := by
  constructor
  · obtain ⟨statements, start, array, first, second, key, module, exports⟩ :
        ∃ statements start array first second key, readModule
          "module.exports = \x7bplugins: [f(1)], 'plugins.x': f(2)\x7d;".toList = .ok statements ∧
        exported? statements = some (.object start
          [.pair (.name "plugins".toList) (.array array [.call first "f(1)".toList]),
            .pair (.string key [.fragment key.tail "plugins.x".toList])
              (.call second "f(2)".toList)]) :=
      ⟨_, _, _, _, _, _, rfl, rfl⟩
    refine ((ofScript_calls module exports none).1 _).2 ⟨⟨_, ?_, rfl⟩, ?_⟩
    · exact .object (.cons rfl (.array (.cons (.call _ _) .nil)) (.cons rfl (.call _ _) .nil))
    · rintro _ (_ | _ | ⟨hmem, hat⟩ | _)
      obtain heq | hmem := List.mem_cons.1 hmem
      · obtain ⟨rfl, rfl⟩ := Member.pair.inj heq
        obtain - | - | - | - := hat
        exact .inl ⟨_, _, _, rfl, rfl⟩
      · obtain ⟨rfl, rfl⟩ := Member.pair.inj (List.mem_singleton.1 hmem)
        obtain - | - | - | - := hat
        exact .inr ⟨[], _, "plugins.x", [], rfl, List.forall_mem_nil _, rfl, .inl (by decide)⟩
  · obtain ⟨statements, start, call, module, exports⟩ :
        ∃ statements start call, readModule "module.exports = \x7bplugins: f(1)\x7d;".toList =
          .ok statements ∧ exported? statements = some
            (.object start [.pair (.name "plugins".toList) (.call call "f(1)".toList)]) :=
      ⟨_, _, _, rfl, rfl⟩
    have hnamed : ∀ step ∈ [Step.member (.name "plugins".toList)], step.Named := by
      intro step hstep
      exact ⟨"plugins", List.mem_singleton.1 hstep ▸ rfl⟩
    have houtside : ¬ Kept "" [.member (.name "plugins".toList)] := by
      rintro ⟨name, hname, hkept⟩
      obtain rfl := Except.ok.inj hname
      exact absurd (show isPluginPath _ = true from hkept) (by decide)
    rw [kept_root hnamed, not_or] at houtside
    exact (ofScript_calls module exports none).2 _ (.member List.mem_cons_self .call) houtside.1
      houtside.2

end CssBuild
