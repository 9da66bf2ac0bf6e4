import Mathlib.Logic.Function.Basic
import AsioQuickjs.Trampoline

/-! The functions that a host and all hosts have under a name, and which of them a script
calls. Functions of a host are meant to hide the global ones. -/
namespace AsioQuickjs
namespace FunctionRegistry

open Trampoline

/-- The functions of one host. -/
structure Instance (V : Type) where
  syncFunctions : Table Bytes (SyncFunction V) := ∅
  asyncFunctions : Table Bytes (AsyncFunction V) := ∅

/-- The registries of the hosts, and the global functions. -/
structure Registries (H V : Type) where
  instances : H → Instance V := fun _ => {}
  globalSyncFunctions : Table Bytes (SyncFunction V) := ∅
  globalAsyncFunctions : Table Bytes (AsyncFunction V) := ∅

/-- A call of one of the functions that register. -/
inductive Registration (H V : Type)
  | function (h : H) (name : Bytes) (f : SyncFunction V)
  | asyncFunction (h : H) (name : Bytes) (f : AsyncFunction V)
  | globalFunction (name : Bytes) (f : SyncFunction V)
  | globalAsyncFunction (name : Bytes) (f : AsyncFunction V)

variable {H V : Type}

namespace Registries

section register

variable [DecidableEq H] (r : Registries H V)

def registerFunction (h : H) (name : Bytes) (f : SyncFunction V) : Registries H V :=
  let i := { r.instances h with
    syncFunctions := (r.instances h).syncFunctions.insert name f }
  { r with instances := Function.update r.instances h i }

def registerAsyncFunction (h : H) (name : Bytes) (f : AsyncFunction V) : Registries H V :=
  let i := { r.instances h with
    asyncFunctions := (r.instances h).asyncFunctions.insert name f }
  { r with instances := Function.update r.instances h i }

def registerGlobalFunction (name : Bytes) (f : SyncFunction V) : Registries H V :=
  { r with globalSyncFunctions := r.globalSyncFunctions.insert name f }

def registerGlobalAsyncFunction (name : Bytes) (f : AsyncFunction V) : Registries H V :=
  { r with globalAsyncFunctions := r.globalAsyncFunctions.insert name f }

def register : Registration H V → Registries H V
  | .function h name f => r.registerFunction h name f
  | .asyncFunction h name f => r.registerAsyncFunction h name f
  | .globalFunction name f => r.registerGlobalFunction name f
  | .globalAsyncFunction name f => r.registerGlobalAsyncFunction name f

end register

variable (r : Registries H V) (h : H) (name : Bytes)

def hasFunction : Bool :=
  name ∈ (r.instances h).syncFunctions || name ∈ (r.instances h).asyncFunctions ||
  name ∈ r.globalSyncFunctions || name ∈ r.globalAsyncFunctions

def findSyncFunction : Option (SyncFunction V) :=
  match (r.instances h).syncFunctions.lookup name with
  | some f => some f
  | none => r.globalSyncFunctions.lookup name

def findAsyncFunction : Option (AsyncFunction V) :=
  match (r.instances h).asyncFunctions.lookup name with
  | some f => some f
  | none => r.globalAsyncFunctions.lookup name

/-- What a script on this host calls by `native_call`. -/
def registry (print : Bytes → String) : Registry V where
  findSyncFunction := r.findSyncFunction h
  findAsyncFunction := r.findAsyncFunction h
  print := print

end Registries

inductive Callee (V : Type)
  | sync (f : SyncFunction V)
  | async (f : AsyncFunction V)

/-- How `native_call` goes on with a function. -/
def Callee.call (vs : List V) : Callee V → Pending V → JSValue V × Pending V
  | .sync f => fun p =>
    match f vs p with
    | (.ok v,p) => (v,p)
    | (.error .convertError,p) => (.exception,p)
    | (.error (.runtimeError what),_) => (.exception,some (.error what))
  | .async f => f vs

def notRegistered (print : Bytes → String) (name : Bytes) : JSValue V × Pending V :=
  (.exception,some (.typeError ("call: function not registered: "++print name)))

/-- The function that `native_call` has found. -/
def callee (r : Registries H V) (h : H) (name : Bytes) : Option (Callee V) :=
  match r.findSyncFunction h name with
  | some f => some (.sync f)
  | none => (r.findAsyncFunction h name).map .async

theorem nativeCall_eq (r : Registries H V) (h : H) (print : Bytes → String) (name : Bytes)
    (vs : List V) (p : Pending V) :
    nativeCall (r.registry h print) name vs p =
      (callee r h name).elim (notRegistered print name) fun c => c.call vs p := by
  rw [nativeCall,callee]
  simp only [Registries.registry]
  cases r.findSyncFunction h name with
  | some f => rfl
  | none => cases r.findAsyncFunction h name <;> rfl

namespace Registration

variable [DecidableEq H] (h : H) (name : Bytes)

def sync : Registration H V → Option (SyncFunction V)
  | .function i n f => if i = h ∧ n = name then some f else none
  | _ => none

def async : Registration H V → Option (AsyncFunction V)
  | .asyncFunction i n f => if i = h ∧ n = name then some f else none
  | _ => none

def globalSync (name : Bytes) : Registration H V → Option (SyncFunction V)
  | .globalFunction n f => if n = name then some f else none
  | _ => none

def globalAsync (name : Bytes) : Registration H V → Option (AsyncFunction V)
  | .globalAsyncFunction n f => if n = name then some f else none
  | _ => none

end Registration

/-- A table that each registration changes as it says holds what was registered last. -/
theorem foldl_last {S R F : Type} {apply : S → R → S} (held : S → Option F)
    (pick : R → Option F) (hstep : ∀ s x, held (apply s x) = (pick x).or (held s)) (s : S)
    (xs : List R) : held (xs.foldl apply s) = (xs.filterMap pick).getLast?.or (held s) := by
  induction xs generalizing s with
  | nil => rfl
  | cons x xs ih =>
    rw [List.foldl_cons,ih,hstep]
    cases hx : pick x with
    | none => rw [List.filterMap_cons_none hx]; rfl
    | some f =>
      rw [List.filterMap_cons_some hx,List.getLast?_cons]
      cases (xs.filterMap pick).getLast? <;> rfl

section registered

variable [DecidableEq H] (as : List (Registration H V)) (h : H) (name : Bytes)

def registered : Registries H V := as.foldl Registries.register {}

/-- The functions registered last on this host under the name, and globally. -/
def lastSync : Option (SyncFunction V) := (as.filterMap (Registration.sync h name)).getLast?

def lastAsync : Option (AsyncFunction V) := (as.filterMap (Registration.async h name)).getLast?

def lastGlobalSync : Option (SyncFunction V) :=
  (as.filterMap (Registration.globalSync name)).getLast?

def lastGlobalAsync : Option (AsyncFunction V) :=
  (as.filterMap (Registration.globalAsync name)).getLast?

theorem lookup_insert_or {F : Type} (t : Table Bytes F) (n : Bytes) (f : F) :
    (t.insert n f).lookup name = (if n = name then some f else none).or (t.lookup name) := by
  rw [lookup_insert_ite]
  by_cases hn : n = name
  · rw [if_pos hn.symm,if_pos hn]
    rfl
  · rw [if_neg (Ne.symm hn),if_neg hn]
    rfl

/-- A table that is empty at first, and into which each registration puts what it picks. -/
theorem lookup_last {F : Type} (table : Registries H V → Table Bytes F)
    (pick : Registration H V → Option F) (hempty : table {} = ∅)
    (hstep : ∀ r x, (table (r.register x)).lookup name = (pick x).or ((table r).lookup name)) :
    (table (registered as)).lookup name = (as.filterMap pick).getLast? := by
  have hlast := foldl_last (fun r => (table r).lookup name) pick hstep {} as
  rwa [hempty,AList.lookup_empty,Option.or_none] at hlast

theorem instances_update (r : Registries H V) (i : H) (x : Instance V) :
    Function.update r.instances i x h = if i = h then x else r.instances h := by
  rw [Function.update_apply]
  exact if_congr eq_comm rfl rfl

theorem lookup_syncFunctions :
    ((registered as).instances h).syncFunctions.lookup name = lastSync as h name := by
  refine lookup_last as name (fun r => (r.instances h).syncFunctions) _ rfl fun r x => ?_
  cases x with
  | function i n f =>
    simp only [Registries.register,Registries.registerFunction,instances_update,
      Registration.sync]
    by_cases hi : i = h
    · subst hi
      simpa using lookup_insert_or name _ n f
    · simp [hi]
  | asyncFunction i n f =>
    simp only [Registries.register,Registries.registerAsyncFunction,instances_update]
    by_cases hi : i = h
    · subst hi
      simp [Registration.sync]
    · simp [hi,Registration.sync]
  | globalFunction n f | globalAsyncFunction n f => rfl

theorem lookup_asyncFunctions :
    ((registered as).instances h).asyncFunctions.lookup name = lastAsync as h name := by
  refine lookup_last as name (fun r => (r.instances h).asyncFunctions) _ rfl fun r x => ?_
  cases x with
  | asyncFunction i n f =>
    simp only [Registries.register,Registries.registerAsyncFunction,instances_update,
      Registration.async]
    by_cases hi : i = h
    · subst hi
      simpa using lookup_insert_or name _ n f
    · simp [hi]
  | function i n f =>
    simp only [Registries.register,Registries.registerFunction,instances_update]
    by_cases hi : i = h
    · subst hi
      simp [Registration.async]
    · simp [hi,Registration.async]
  | globalFunction n f | globalAsyncFunction n f => rfl

theorem lookup_globalSyncFunctions :
    (registered as).globalSyncFunctions.lookup name = lastGlobalSync as name := by
  refine lookup_last as name Registries.globalSyncFunctions _ rfl fun r x => ?_
  cases x with
  | globalFunction n f => exact lookup_insert_or name _ n f
  | function i n f | asyncFunction i n f | globalAsyncFunction n f => rfl

theorem lookup_globalAsyncFunctions :
    (registered as).globalAsyncFunctions.lookup name = lastGlobalAsync as name := by
  refine lookup_last as name Registries.globalAsyncFunctions _ rfl fun r x => ?_
  cases x with
  | globalAsyncFunction n f => exact lookup_insert_or name _ n f
  | function i n f | asyncFunction i n f | globalFunction n f => rfl

/-- A function that stands under the name on this host, or globally. -/
def OnInstance (c : Callee V) : Prop :=
  (∃ f ∈ lastSync as h name, c = .sync f) ∨ ∃ f ∈ lastAsync as h name, c = .async f

def Global (c : Callee V) : Prop :=
  (∃ f ∈ lastGlobalSync as name, c = .sync f) ∨ ∃ f ∈ lastGlobalAsync as name, c = .async f

/-- A call by this name reaches a function of the host, if it has one, or else a global one, if
there is one; and there is nothing to call exactly if `has_function` says so. -/
structure Shadows : Prop where
  instance_ : ∀ d, OnInstance as h name d →
    ∃ c ∈ callee (registered as) h name, OnInstance as h name c
  global : (∀ d, ¬ OnInstance as h name d) → ∀ d, Global as name d →
    ∃ c ∈ callee (registered as) h name, Global as name c
  registered_ : callee (registered as) h name = none ↔
    (registered as).hasFunction h name = false

theorem callee_registered :
    callee (registered as) h name =
      (((lastSync as h name).or (lastGlobalSync as name)).map .sync).or
        (((lastAsync as h name).or (lastGlobalAsync as name)).map .async) := by
  have hsync : (registered as).findSyncFunction h name =
      (lastSync as h name).or (lastGlobalSync as name) := by
    rw [Registries.findSyncFunction,lookup_syncFunctions,lookup_globalSyncFunctions]
    cases lastSync as h name <;> rfl
  have hasync : (registered as).findAsyncFunction h name =
      (lastAsync as h name).or (lastGlobalAsync as name) := by
    rw [Registries.findAsyncFunction,lookup_asyncFunctions,lookup_globalAsyncFunctions]
    cases lastAsync as h name <;> rfl
  rw [callee,hsync,hasync]
  cases (lastSync as h name).or (lastGlobalSync as name) <;> rfl

theorem hasFunction_registered :
    (registered as).hasFunction h name =
      ((lastSync as h name).isSome || (lastAsync as h name).isSome ||
        (lastGlobalSync as name).isSome || (lastGlobalAsync as name).isSome) := by
  have hmem : ∀ {F : Type} (t : Table Bytes F), decide (name ∈ t) = (t.lookup name).isSome :=
    fun t => by rw [eq_comm,Bool.eq_iff_iff,AList.lookup_isSome,decide_eq_true_iff]
  rw [Registries.hasFunction,hmem,hmem,hmem,hmem,lookup_syncFunctions,lookup_asyncFunctions,
    lookup_globalSyncFunctions,lookup_globalAsyncFunctions]

/-- Functions of a host hide the global ones except where a global one is synchronous and the
host has only an asynchronous one. -/
theorem shadows_iff :
    Shadows as h name ↔
      ¬ (lastSync as h name = none ∧ lastAsync as h name ≠ none ∧
        lastGlobalSync as name ≠ none) := by
  have hcallee := callee_registered as h name
  have hhas := hasFunction_registered as h name
  constructor
  · -- a synchronous global function is found first
    rintro hshadows ⟨hs,ha,hg⟩
    obtain ⟨a,ha⟩ := Option.ne_none_iff_exists'.mp ha
    obtain ⟨g,hg⟩ := Option.ne_none_iff_exists'.mp hg
    obtain ⟨c,hc,hon⟩ := hshadows.instance_ (.async a) (.inr ⟨a,ha,rfl⟩)
    rw [hcallee,hs,hg] at hc
    obtain rfl : Callee.sync g = c := Option.some.inj hc
    rcases hon with ⟨f,hf,-⟩ | ⟨f,-,heq⟩
    · rw [hs] at hf
      cases hf
    · cases heq
  · intro hnot
    refine ⟨?_,?_,?_⟩
    · rintro d (⟨f,hf,rfl⟩ | ⟨f,hf,rfl⟩)
      · exact ⟨.sync f,by rw [hcallee,Option.mem_def.mp hf]; rfl,.inl ⟨f,hf,rfl⟩⟩
      · cases hs : lastSync as h name with
        | some g => exact ⟨.sync g,by rw [hcallee,hs]; rfl,.inl ⟨g,hs,rfl⟩⟩
        | none =>
          have hg : lastGlobalSync as name = none := by
            by_contra hg
            exact hnot ⟨hs,by rw [Option.mem_def.mp hf]; simp,hg⟩
          refine ⟨.async f,?_,.inr ⟨f,hf,rfl⟩⟩
          rw [hcallee,hs,hg,Option.mem_def.mp hf]
          rfl
    · intro hnone d hd
      have hs : lastSync as h name = none := Option.eq_none_iff_forall_not_mem.mpr fun f hf =>
        hnone _ (.inl ⟨f,hf,rfl⟩)
      have ha : lastAsync as h name = none := Option.eq_none_iff_forall_not_mem.mpr fun f hf =>
        hnone _ (.inr ⟨f,hf,rfl⟩)
      rw [hcallee,hs,ha,Option.none_or,Option.none_or]
      cases hg : lastGlobalSync as name with
      | some g => exact ⟨.sync g,rfl,.inl ⟨g,hg,rfl⟩⟩
      | none =>
        rcases hd with ⟨f,hf,-⟩ | ⟨f,hf,rfl⟩
        · rw [hg] at hf
          cases hf
        · exact ⟨.async f,by rw [Option.mem_def.mp hf]; rfl,.inr ⟨f,hf,rfl⟩⟩
    · rw [hcallee,hhas]
      cases lastSync as h name <;> cases lastAsync as h name <;>
        cases lastGlobalSync as name <;> cases lastGlobalAsync as name <;> simp

end registered

/-- A global function and an asynchronous one of a host, under one name. -/
def clash : List (Registration Unit Unit) :=
  [.globalFunction (ascii "f") fun _ => .ret (.value ()),
    .asyncFunction () (ascii "f") fun _ p => (.value (),p)]

theorem not_shadows_clash : ¬ Shadows clash () (ascii "f") := by
  intro h
  obtain ⟨c,hc,hon⟩ := h.instance_ (.async fun _ p => (.value (),p)) (.inr ⟨_,rfl,rfl⟩)
  obtain rfl : Callee.sync (fun _ => Code.ret (.value ())) = c := Option.some.inj hc
  rcases hon with ⟨f,hf,-⟩ | ⟨f,-,heq⟩
  · cases hf
  · cases heq

end FunctionRegistry
end AsioQuickjs
