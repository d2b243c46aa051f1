import DynamicSql.Proofs.Interception.Composition

/-!
How far calls come. Main statement: an interceptor is silenced by others only where one of them gets a wrapper
and does not declare the kind; as long as the kind is exposed, a call comes to the handler of each interceptor
that declares the operation, once the earlier ones have proceeded with an input.
-/
namespace DynamicSql

open Component

variable {World : Type} {op : Operation} {i : Interceptor World} {base inner c : Component World}
  {chain : Chain World} {earlier later : List (Interceptor World)} {x y : op.Input} {v w : World}

/--
A call comes to the handler of `i` in front of `inner`, with the input `y` in the world `v`. A wrapper in
between either does not declare the operation, or its handler proceeds with an input.
-/
inductive Reaches (op : Operation) (i : Interceptor World) (inner : Component World) (y : op.Input) (v : World) :
    Component World → op.Input → World → Prop where
  | called {index kinds} : index.contains op = true → Reaches op i inner y v (.wrapper inner i index kinds) y v
  | forwarded {behind j index kinds x w} : ¬ index.contains op = true →
      behind.exposed.contains op.kind = true → Reaches op i inner y v behind x w →
      Reaches op i inner y v (.wrapper behind j index kinds) x w
  | proceeded {behind : Component World} {j index kinds x w args x' w'} : index.contains op = true →
      behind.exposed.contains op.kind = true → j.Proceeds op (Operation.args op.input x) w args w' →
      op.Carries args x' → Reaches op i inner y v behind x' w' →
      Reaches op i inner y v (.wrapper behind j index kinds) x w

/-- Handlers, one after the other, proceed with an input: from `x` in the world `w` to `y` in the world `v`. -/
inductive Through (op : Operation) (y : op.Input) (v : World) : List (Interceptor World) → op.Input → World → Prop
  where
  | all : Through op y v [] y v
  | proceeds {j later x w args x' w'} : j.Proceeds op (Operation.args op.input x) w args w' →
      op.Carries args x' → Through op y v later x' w' → Through op y v (j :: later) x w

namespace Chain

/-- The later interceptors are wrapped first. -/
theorem wrapAll_append (earlier later : List (Interceptor World)) (base : Component World) :
    wrapAll (earlier ++ later) base = wrapAll later base >>= wrapAll earlier := by
  induction earlier with
  | nil =>
    rw [List.nil_append]
    cases wrapAll later base <;> rfl
  | cons i earlier ih =>
    rw [List.cons_append, wrapAll, ih]
    cases wrapAll later base <;> rfl

/-- At any place a list of interceptors can be cut into those inside and those around. -/
theorem wrapAll_append_eq_ok_iff : wrapAll (earlier ++ later) base = .ok c ↔
    ∃ inner, wrapAll later base = .ok inner ∧ wrapAll earlier inner = .ok c := by
  rw [wrapAll_append]
  cases wrapAll later base with
  | error f =>
    change Except.error f = Except.ok c ↔ _
    simp
  | ok inner =>
    change wrapAll earlier inner = .ok c ↔ _
    simp

/-- Where some interceptor declares an operation of the target, what wrapping makes exposes what it says. -/
theorem exposed_of_declares (h : wrapAll (earlier ++ i :: later) base = .ok c) (hd : i.Declares op)
    (hk : base.kinds.contains op.kind = true) : c.kinds = c.exposed := by
  obtain ⟨layer, hlayer, houter⟩ := wrapAll_append_eq_ok_iff.mp h
  refine exposed_of_wrapAll ?_ houter
  obtain ⟨inner, index, hinner, hindex, rfl⟩ := wrapAll_cons_eq_ok_iff.mp hlayer
  cases i.wrapWith_cases hindex inner with
  | inl hnone =>
    obtain ⟨hm, hc⟩ := hnone
    rw [hc]
    cases eq_or_exposed_of_wrapAll hinner with
    | inl he => exact absurd (hd.matches (he ▸ hk)) hm
    | inr he => exact he
  | inr hsome =>
    obtain ⟨-, kinds, hc, -⟩ := hsome
    rw [hc]
    rfl

/-- What was reached behind a component is reached through the wrappers around it. -/
theorem reaches_of_wrapAll {layer : Component World} (hl : layer.kinds = layer.exposed)
    (h : wrapAll earlier layer = .ok c) (he : c.exposed.contains op.kind = true) {x' : op.Input} {w' : World}
    (ht : Through op x' w' (earlier.filter (·.Declares op)) x w) (hr : Reaches op i inner y v layer x' w') :
    Reaches op i inner y v c x w := by
  induction earlier generalizing c x w with
  | nil =>
    obtain rfl := Except.ok.inj h
    cases ht with
    | all => exact hr
  | cons j later ih =>
    obtain ⟨behind, hbehind, hexposed, hcases⟩ := wrapAll_cons_cases hl h he
    by_cases hd : j.Declares op
    · rw [List.filter_cons_of_pos (by simpa using hd)] at ht
      obtain ⟨hn, -⟩ | ⟨index, kinds, rfl, hcontains⟩ := hcases
      · exact absurd hd hn
      · cases ht with
        | proceeds hp hx hrest => exact .proceeded (hcontains.mpr hd) hexposed hp hx (ih hbehind hexposed hrest)
    · rw [List.filter_cons_of_neg (by simpa using hd)] at ht
      obtain ⟨-, rfl⟩ | ⟨index, kinds, rfl, hcontains⟩ := hcases
      · exact ih hbehind hexposed ht
      · exact .forwarded (fun hi => hd (hcontains.mp hi)) hexposed (ih hbehind hexposed ht)

/--
An operation that an interceptor declares stays callable exactly when every interceptor that gets a wrapper
declares its kind. While it does, a call is that of the earlier handlers around the handler of the interceptor,
and reaches it whenever they proceed with an input.
-/
theorem applyAll_reaches (hc : chain.Reachable) (hs : chain.interceptors = earlier ++ i :: later)
    (hv : ∀ j ∈ chain.interceptors, j.Valid) (hd : i.Declares op) (hk : base.kinds.contains op.kind = true) :
    ∃ c, (chain.applyAll base).1 = .ok c ∧
      (c.exposed.contains op.kind = true ↔ Keeps op.kind base chain.interceptors) ∧
      (c.exposed.contains op.kind = true → ∃ inner, wrapAll later base = .ok inner ∧
        c.call op = nested op (earlier.filter (·.Declares op)) (fun x w =>
          settle op (i.intercept ⟨op, Operation.args op.input x, inner.dispatch op⟩ w)) ∧
        ∀ x w y v, Through op y v (earlier.filter (·.Declares op)) x w → Reaches op i inner y v c x w) := by
  obtain ⟨c, h⟩ := (exists_wrapAll_iff base).mpr hv
  have hagree : c.kinds = c.exposed := exposed_of_declares (hs ▸ h) hd hk
  refine ⟨c, (hc.applyAll base).trans h, ?_, fun he => ?_⟩
  · rw [← hagree, contains_kinds_of_wrapAll h, and_iff_right hk]
  · rw [hs] at h
    obtain ⟨layer, hlayer, houter⟩ := wrapAll_append_eq_ok_iff.mp h
    obtain ⟨inner, index, hinner, hindex, rfl⟩ := wrapAll_cons_eq_ok_iff.mp hlayer
    refine ⟨inner, hinner, ?_⟩
    -- What the component exposes was exposed at each stage, so the interceptor matched and got a wrapper.
    have hkept : (i.wrapWith index inner).component.kinds.contains op.kind = true :=
      ((contains_kinds_of_wrapAll houter).mp (hagree ▸ he)).1
    cases i.wrapWith_cases hindex inner with
    | inl hnone =>
      obtain ⟨hm, hc⟩ := hnone
      rw [hc] at hkept
      exact absurd (hd.matches hkept) hm
    | inr hsome =>
      obtain ⟨-, kinds, hc, -⟩ := hsome
      rw [hc] at houter
      have hcontains : index.contains op = true := (Interceptor.contains_of_index hindex).mpr hd
      have hcall : (Component.wrapper inner i index kinds).call op = fun x w =>
          settle op (i.intercept ⟨op, Operation.args op.input x, inner.dispatch op⟩ w) :=
        funext (call_declared hcontains)
      refine ⟨hcall ▸ call_of_wrapAll rfl houter he, fun x w y v ht => ?_⟩
      exact reaches_of_wrapAll rfl houter he ht (.called hcontains)

end Chain

/-! Executors behind interceptors that leave them callable, and behind others that do not. -/

def observer (signatures : List Signature) : Interceptor (List Text) where
  name := "observer"
  signatures := signatures
  intercept := Invocation.proceed

def forgetful : Interceptor (List Text) where
  name := "forgetful"
  signatures := [⟨.executor, "update"⟩]
  intercept call := (call.withArgs []).proceed

def steward : Interceptor (List Text) := observer [⟨.executor, "query"⟩, ⟨.statementHandler, "prepare"⟩]

def office : Component (List Text) := .target (desk [.executor, .statementHandler])

theorem steward_reached : ∃ c, ((Chain.ofList [tenant, steward]).applyAll office).1 = .ok c ∧
    Chain.Keeps .executor office [tenant, steward] ∧
    ∃ inner, Reaches .query steward inner { text := "SELECT 1 WHERE tenant = 7".toList } [] c
      { text := "SELECT 1".toList } [] := by
  have hsplit : (Chain.ofList [tenant, steward]).interceptors = [tenant] ++ steward :: [] := rfl
  have hvalid : ∀ i ∈ (Chain.ofList [tenant, steward]).interceptors, i.Valid := by decide
  have hdeclares : steward.Declares .query := by decide
  have hkind : office.kinds.contains .executor = true := rfl
  obtain ⟨c, h, hkeeps, hreaches⟩ :=
    Chain.applyAll_reaches (Chain.reachable_ofList _) hsplit hvalid hdeclares hkind
  have he : c.exposed.contains .executor = true := by
    obtain rfl := Except.ok.inj h
    rfl
  obtain ⟨inner, -, -, hthrough⟩ := hreaches he
  refine ⟨c, h, hkeeps.mp he, inner, hthrough _ _ _ _ ?_⟩
  exact .proceeds (Interceptor.proceeds_of_eq (fun _ => rfl) []) (Operation.carries_args .query _) .all

/--
A wrapper for statements alone hides the executor behind it. Where the executor is exposed, no call comes to a
handler behind one that proceeds without an argument, or around a target that does not say that it has the kind.
-/
theorem office_silenced :
    (∃ c, ((Chain.ofList [readOnly, observer [⟨.statementHandler, "prepare"⟩]]).applyAll office).1 = .ok c ∧
      readOnly.Declares .update ∧ office.exposed.contains .executor = true ∧
      c.exposed.contains .executor = false) ∧
    (∀ handler, ∃ c,
      ((Chain.ofList [forgetful, { readOnly with intercept := handler }]).applyAll office).1 = .ok c ∧
      forgetful.Proceeds .update [.query { text := "DELETE".toList }] [] [] [] ∧
      c.exposed.contains .executor = true ∧ c.call .update { text := "DELETE".toList } [] =
        .error (.fault (Fault.invocationMismatch "Executor.update" "query" "no arguments")) []) ∧
    ∀ handler, ∃ c,
      ((Chain.ofList [{ readOnly with intercept := handler }]).applyAll
        (.target { desk [.executor] with declared := .empty })).1 = .ok c ∧
      c.exposed.contains .executor = true ∧
      c.call .update { text := "DELETE".toList } [] = .ok (1 : UInt64) ["DELETE".toList] := by
  refine ⟨?_, fun handler => ?_, fun handler => ?_⟩
  · exact ⟨_, rfl, by decide, rfl, rfl⟩
  · exact ⟨_, rfl, Interceptor.proceeds_of_eq (fun _ => rfl) [], rfl, rfl⟩
  · exact ⟨_, rfl, rfl, rfl⟩

end DynamicSql
