import Laconic.Grammar.State
import Laconic.Proofs.Tree.Targets

/-!
# What surrounds the present token

The reader of programs keeps track of the loops, `switch` statements and labels around the
present token.  An operation that succeeds leaves them as they were, whatever it reads: it
gives back each context that it changes.  `Yields` says so along with what is known of the
result, in all surroundings of a kind.
-/

namespace Laconic

def Context.targets (c : Context) : Targets where
  loop := c.loops != 0
  switch := c.switches != 0
  label name := (c.labels.find? (·.name == name)).map (·.isLoop)

namespace Context

theorem targets_loop (c : Context) :
    { c with loops := c.loops + 1 : Context }.targets = c.targets.inLoop := rfl

theorem targets_switch (c : Context) :
    { c with switches := c.switches + 1 : Context }.targets = c.targets.inSwitch := rfl

theorem targets_label (c : Context) (name : String) (isLoop : Bool) :
    { c with labels := ⟨name, isLoop⟩ :: c.labels : Context }.targets
      = c.targets.labeled name isLoop := by
  have hlabel : (fun other => ((⟨name, isLoop⟩ :: c.labels : List Label).find?
        (·.name == other)).map (·.isLoop))
      = fun other => if other = name then some isLoop else c.targets.label other := by
    funext other
    by_cases h : other = name
    · simp [h]
    · simp [h, Ne.symm h, targets]
  simp only [targets, Targets.labeled, hlabel]

end Context

namespace Parse

variable {t : Targets} {α β σ : Type} {m : Parse α} {f : α → Parse β} {P : α → Prop} {Q : β → Prop}
  {s s' : ParserState}

/-- In surroundings of a kind an operation reads something with a property and leaves the
surroundings as they are, unless it fails. -/
def Yields (t : Targets) (m : Parse α) (P : α → Prop) : Prop :=
  ∀ s a s', s.context.targets = t → m s = .ok a s' → s'.context.targets = t ∧ P a

/-- An operation leaves all surroundings as they are. -/
class Keeps (m : Parse α) : Prop where
  yields : ∀ t, Yields t m fun _ => True

/-! ## Putting operations together -/

theorem bind_eq_ok {b : β} (h : (m >>= f) s = .ok b s') :
    ∃ a s₁, m s = .ok a s₁ ∧ f a s₁ = .ok b s' := by
  have hrun : (m >>= f) s = EStateM.bind m f s := rfl
  rw [hrun, EStateM.bind] at h
  split at h
  · next a s₁ hm => exact ⟨a, s₁, hm, h⟩
  · cases h

namespace Yields

variable {γ : Type} {b : Prop} {fault : SyntaxFault} {pos : Position}

theorem pure {a : α} (h : P a) : Yields t (pure a) P := by
  intro s a' s' hs hrun
  cases hrun
  exact ⟨hs, h⟩

theorem bind (hm : Yields t m P) (hf : ∀ a, P a → Yields t (f a) Q) : Yields t (m >>= f) Q := by
  intro s b s' hs hrun
  obtain ⟨a, s₁, hm₁, hf₁⟩ := bind_eq_ok hrun
  obtain ⟨hs₁, ha⟩ := hm s a s₁ hs hm₁
  exact hf a ha s₁ b s' hs₁ hf₁

theorem mono {P' : α → Prop} (hm : Yields t m P) (h : ∀ a, P a → P' a) : Yields t m P' :=
  fun s a s' hs hrun => (hm s a s' hs hrun).imp_right (h a)

theorem skip [Keeps m] (hf : ∀ a, Yields t (f a) Q) : Yields t (m >>= f) Q :=
  (Keeps.yields t).bind fun a _ => hf a

theorem skip₂ {R : γ → Prop} {m₂ : α → Parse β} {f : α → β → Parse γ} [Keeps m] [∀ a, Keeps (m₂ a)]
    (hf : ∀ a b, Yields t (f a b) R) : Yields t (m >>= fun a => m₂ a >>= f a) R :=
  .skip fun a => .skip (hf a)

theorem skip₃ {δ : Type} {R : δ → Prop} {m₂ : α → Parse β} {m₃ : α → β → Parse γ}
    {f : α → β → γ → Parse δ} [Keeps m] [∀ a, Keeps (m₂ a)] [∀ a b, Keeps (m₃ a b)]
    (hf : ∀ a b c, Yields t (f a b c) R) :
    Yields t (m >>= fun a => m₂ a >>= fun b => m₃ a b >>= f a b) R :=
  .skip fun a => .skip₂ (hf a)

theorem map {g : α → β} (hm : Yields t m P) (h : ∀ a, P a → Q (g a)) : Yields t (g <$> m) Q :=
  bind (f := fun a => Pure.pure (g a)) hm fun a ha => .pure (h a ha)

theorem ite [Decidable b] {m' : Parse α} (hm : b → Yields t m P) (hm' : ¬b → Yields t m' P) :
    Yields t (if b then m else m') P := by
  split
  · exact hm ‹b›
  · exact hm' ‹¬b›

theorem branch {c : α → Prop} [∀ a, Decidable (c a)] {m₁ m₂ : Parse β} [Keeps m]
    (h₁ : Yields t m₁ Q) (h₂ : Yields t m₂ Q) :
    Yields t (m >>= fun a => if c a then m₁ else m₂) Q :=
  .skip fun _ => .ite (fun _ => h₁) fun _ => h₂

/-- What comes after a check that may be left out. -/
theorem check [Decidable b] {check : Parse PUnit} {rest : PUnit → Parse β} [Keeps check]
    (hrest : ∀ x, Yields t (rest x) Q) : Yields t (if b then check >>= rest else rest ⟨⟩) Q :=
  .ite (fun _ => .skip hrest) fun _ => hrest ⟨⟩

theorem either [Decidable b] {m' : Parse α} (hm : b → Yields t m P) (hm' : ¬b → Yields t m' P)
    (hf : ∀ a, P a → Yields t (f a) Q) : Yields t (if b then m >>= f else m' >>= f) Q :=
  .ite (fun hb => (hm hb).bind hf) fun hb => (hm' hb).bind hf

/-- What comes after one of two operations that are of no account. -/
theorem skipEither [Decidable b] {m' : Parse α} [Keeps m] [Keeps m'] (hf : ∀ a, Yields t (f a) Q) :
    Yields t (if b then m >>= f else m' >>= f) Q :=
  .ite (fun _ => .skip hf) fun _ => .skip hf

theorem fail : Yields t (Parse.fail fault pos) P :=
  fun _ _ _ _ hrun => nomatch hrun

theorem failed : Yields t (Parse.fail fault pos >>= f) Q :=
  bind (P := fun _ => False) .fail nofun

/-- The state that an operation looks at. -/
theorem get : Yields t get fun s => s.context.targets = t := by
  intro s a s' hs hrun
  cases hrun
  exact ⟨hs, hs⟩

end Yields

instance {a : α} : Keeps (pure a) := ⟨fun _ => .pure trivial⟩

instance [Keeps m] [∀ a, Keeps (f a)] : Keeps (m >>= f) :=
  ⟨fun t => .skip fun _ => Keeps.yields t⟩

instance {b : Prop} [Decidable b] {m' : Parse α} [Keeps m] [Keeps m'] :
    Keeps (if b then m else m') :=
  ⟨fun t => .ite (fun _ => Keeps.yields t) fun _ => Keeps.yields t⟩

instance {g : α → β} [Keeps m] : Keeps (g <$> m) :=
    ⟨fun t => (Keeps.yields t).map fun _ _ => trivial⟩

instance [Keeps m] : Keeps (discard m) := ⟨fun t => (Keeps.yields t).map fun _ _ => trivial⟩

instance {fault : SyntaxFault} {pos : Position} : Keeps (α := α) (Parse.fail fault pos) :=
  ⟨fun _ => .fail⟩

instance : Keeps get := ⟨fun _ => Yields.get.mono fun _ _ => trivial⟩

instance : Keeps (α := α) unexpected := by unfold unexpected; infer_instance

theorem Keeps.bind [Keeps m] (hf : ∀ a, Keeps (f a)) : Keeps (m >>= f) := inferInstance

theorem Keeps.modify {f : ParserState → ParserState}
    (h : ∀ s, (f s).context.targets = s.context.targets) : Keeps (modify f) := by
  refine ⟨fun t s a s' hs hrun => ?_⟩
  cases hrun
  exact ⟨(h s).trans hs, trivial⟩

instance {token : Token} : Keeps (modify ({ · with token := token })) := .modify fun _ => rfl

theorem Yields.unexpected : Yields t unexpected P := .skip fun _ => .fail

/-! ## The operations -/

instance : Keeps kind := by unfold kind; infer_instance

instance {k : TokenKind} : Keeps (isAt k) := by unfold isAt; infer_instance

instance {p : Punct} : Keeps (isPunct p) := by unfold isPunct; infer_instance

instance {w : Word} : Keeps (isWord w) := by unfold isWord; infer_instance

instance : Keeps afterNewline := by unfold afterNewline; infer_instance

instance : Keeps isStrict := by unfold isStrict; infer_instance

instance : Keeps start := by unfold start; infer_instance

instance {pos : Position} : Keeps (spanFrom pos) := by unfold spanFrom; infer_instance

instance : Keeps peek? := .bind fun _ => by split <;> infer_instance

instance : Keeps peekKind := by unfold peekKind; infer_instance

instance : Keeps peekTwo? := .bind fun _ => by
  split
  · split <;> infer_instance
  · infer_instance

instance {act : Scanning α} : Keeps (onScanner act) := by
  refine ⟨fun t s a s' hs hrun => ?_⟩
  unfold Parse.onScanner at hrun
  split at hrun
  · cases hrun
    exact ⟨hs, trivial⟩
  · cases hrun

instance : Keeps bump := .bind fun fresh => ⟨fun t => by
  refine Yields.get.bind fun s hs => ?_
  have hset : Yields t (set { s with
      token := fresh
      prevKind := some s.token.kind
      prevStop := s.token.span.stop
      comments := fresh.comments.reverse ++ s.comments }) fun _ => True := by
    intro s₁ a s' _ hrun
    cases hrun
    exact ⟨hs, trivial⟩
  exact hset.bind fun _ _ => .pure trivial⟩

instance {k : TokenKind} : Keeps (eat k) := by unfold eat; infer_instance

instance {p : Punct} : Keeps (eatPunct p) := by unfold eatPunct; infer_instance

instance {w : Word} : Keeps (eatWord w) := by unfold eatWord; infer_instance

instance {k : TokenKind} : Keeps (expect k) := by unfold expect; infer_instance

instance {p : Punct} : Keeps (expectPunct p) := by unfold expectPunct; infer_instance

instance {w : Word} : Keeps (expectWord w) := by unfold expectWord; infer_instance

instance : Keeps semicolon := by unfold semicolon; infer_instance

instance {strict : Bool} : Keeps (setStrict strict) := by
  have hcontext : Keeps (modifyContext ({ · with strict := strict })) := .modify fun _ => rfl
  unfold setStrict
  infer_instance

instance : Keeps rounds := by unfold rounds; infer_instance

instance : Keeps isName := .bind fun _ => by
  repeat' split
  all_goals infer_instance

instance : Keeps bumpIdent := by unfold bumpIdent; infer_instance

instance : Keeps ident := by unfold ident; infer_instance

instance : Keeps bindingIdent := by unfold bindingIdent; infer_instance

instance : Keeps identName := .bind fun _ => by split <;> infer_instance

instance : Keeps string := by unfold string; infer_instance

instance : Keeps asyncFunctionFollows := by unfold asyncFunctionFollows; infer_instance

instance : Keeps letDeclares := .bind fun _ => by
  repeat' split
  all_goals infer_instance

instance : Keeps modifierIsName := .bind fun _ => by
  repeat' split
  all_goals infer_instance

/-! ## Loops and other surroundings -/

theorem inContext_eq_ok {change : Context → Context} {a : α}
    (h : Parse.inContext change m s = .ok a s') :
    ∃ s₁, m { s with context := change s.context } = .ok a s₁ ∧
      s' = { s₁ with context := s.context } := by
  obtain ⟨outer, s₁, hget, h⟩ := bind_eq_ok h
  cases hget
  obtain ⟨_, s₂, hmodify, h⟩ := bind_eq_ok h
  cases hmodify
  obtain ⟨a', s₃, hrun, h⟩ := bind_eq_ok h
  obtain ⟨_, s₄, hback, h⟩ := bind_eq_ok h
  cases hback
  cases h
  exact ⟨s₃, hrun, rfl⟩

namespace Yields

variable {step : σ → Parse (σ ⊕ α)} {I : σ → Prop}

theorem repeatUntil (hstep : ∀ x, I x → Yields t (step x) (Sum.elim I P)) {x : σ} (hx : I x) :
    Yields t (Parse.repeatUntil step x) P := by
  have hwithin : ∀ bound x, I x → Yields t (repeatWithin step bound x) P := by
    intro bound
    induction bound with
    | zero => exact fun _ _ => .skip fun _ => .fail
    | succ bound ih =>
      intro x hx
      refine (hstep x hx).bind fun next hnext => ?_
      cases next with
      | inl x => exact ih x hnext
      | inr a => exact .pure hnext
  exact .skip fun bound => hwithin bound x hx

theorem manyWhile {test : Parse Bool} [Keeps test] (hitem : Yields t m P) :
    Yields t (Parse.manyWhile test m) fun list => ∀ a ∈ list, P a := by
  refine repeatUntil (I := fun acc => ∀ a ∈ acc, P a) (fun acc hacc => ?_) nofun
  refine .branch ?_ (.pure ?_)
  · exact hitem.bind fun a ha => .pure (List.forall_mem_cons.mpr ⟨ha, hacc⟩)
  · exact fun a ha => hacc a (List.mem_reverse.mp ha)

theorem inContext {change : Context → Context} {t' : Targets}
    (hchange : ∀ c : Context, c.targets = t → (change c).targets = t') (hm : Yields t' m P) :
    Yields t (Parse.inContext change m) P := by
  intro s a s' hs hrun
  obtain ⟨s₁, hrun₁, rfl⟩ := inContext_eq_ok hrun
  exact ⟨hs, (hm _ _ _ (hchange _ hs) hrun₁).2⟩

theorem inFunction {isAsync isGenerator : Bool} (hm : Yields {} m P) :
    Yields t (Parse.inFunction isAsync isGenerator m) P := by
  intro s a s' hs hrun
  obtain ⟨outer, s₁, hget, hrun⟩ := bind_eq_ok hrun
  cases hget
  obtain ⟨_, s₂, hmodify, hrun⟩ := bind_eq_ok hrun
  cases hmodify
  obtain ⟨a', s₃, hrun₃, hrun⟩ := bind_eq_ok hrun
  have ha := (hm _ _ _ rfl hrun₃).2
  obtain ⟨_, s₄, hback, hrun⟩ := bind_eq_ok hrun
  cases hback
  have hstrict : Yields t (do Parse.setStrict s.context.strict; return a') fun x => x = a' :=
    .skip fun _ => .pure rfl
  obtain ⟨hs', rfl⟩ := hstrict { s₃ with context := s.context } a s' hs hrun
  exact ⟨hs', ha⟩

end Yields

instance {step : σ → Parse (σ ⊕ α)} [∀ x, Keeps (step x)] {x : σ} :
    Keeps (Parse.repeatUntil step x) := by
  refine ⟨fun t => .repeatUntil (I := fun _ => True) (fun x _ => ?_) trivial⟩
  refine (Keeps.yields t).mono fun next _ => ?_
  cases next <;> trivial

/-! A name that is read as if the code were of another kind of function. -/

instance {isAsync isGenerator : Bool} : Keeps (Parse.inContext
    ({ · with isAsync := isAsync, isGenerator := isGenerator }) bindingIdent) :=
  ⟨fun t => .inContext (fun _ hc => hc) (Keeps.yields t)⟩

instance : Keeps (Parse.inContext ({ · with isAsync := true }) bindingIdent) :=
  ⟨fun t => .inContext (fun _ hc => hc) (Keeps.yields t)⟩

end Parse

end Laconic
