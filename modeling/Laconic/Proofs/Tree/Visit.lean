import Laconic.Tree.Names
import Laconic.Scope.Event
import Mathlib.Control.Basic

/-!
# What a change of names does

A change of the names of variables goes through a tree, meets its identifiers in
the order of its events, and builds the same tree with the new identifiers in the old
places.  So in any monad the change is first a run over the list of identifiers and
then a pure reconstruction (`Visits`).

The events of what is built are the old ones with the identifiers exchanged
(`Refill`).
-/

namespace Laconic

/-- A change of the names of variables only. -/
def NameMap.ofIdent {m : Type → Type} [Monad m] (g : Ident → m Ident) : NameMap m := { ident := g }

/-- The identifiers of events, in order. -/
def ScopeEvent.idents (events : List ScopeEvent) : List Ident := events.filterMap ident?

theorem ScopeEvent.idents_append (a b : List ScopeEvent) : idents (a ++ b) = idents a ++ idents b :=
  List.filterMap_append

/-! ## Runs over identifiers -/

/-- A way to change identifiers, whatever the effects of a change. -/
abbrev Change (α : Type) : Type 1 :=
  (m : Type → Type) → [Monad m] → (Ident → m Ident) → α → m α

section Visits

variable {α β γ δ : Type} {B C D : List Ident} {R : List Ident → α → Prop}
  {S : List Ident → β → Prop} {T : List Ident → γ → Prop} {U : List Ident → δ → Prop}
  {change : Change α} {one : Change β} {two : Change γ} {three : Change δ} {b : β} {c : γ} {d : δ}

/-- In `a` each of the identifiers `ids` is changed, in order; what is built with the new
ones stands in the relation `R` to them, and is changed in the same way. -/
def Visits (change : Change α) (ids : List Ident) (R : List Ident → α → Prop) (a : α) : Prop :=
  ∃ build : List Ident → α, build ids = a ∧ ∀ news, news.length = ids.length →
    R news (build news) ∧ ∀ {m : Type → Type} [Monad m] [LawfulMonad m] (g : Ident → m Ident),
      change m g (build news) = build <$> news.mapM g

theorem map_mapM_append {m : Type → Type} [Monad m] [LawfulMonad m] {g : Ident → m Ident}
    (f : List Ident → List Ident → α) (as bs : List Ident) :
    (fun l => f (l.take as.length) (l.drop as.length)) <$> (as ++ bs).mapM g
      = do return f (← as.mapM g) (← bs.mapM g) := by
  induction as generalizing f with
  | nil =>
    rw [List.mapM_nil, pure_bind, bind_pure_comp]
    rfl
  | cons a as ih =>
    rw [List.cons_append, List.mapM_cons, List.mapM_cons]
    simp only [map_bind, bind_assoc, pure_bind, map_pure]
    congr 1
    funext a'
    rw [← ih fun l l' => f (a' :: l) l', ← bind_pure_comp]
    rfl

theorem visits_pure {a : α} (h : R [] a)
    (hc : ∀ {m : Type → Type} [Monad m] (g : Ident → m Ident), change m g a = pure a) :
    Visits change [] R a := by
  refine ⟨fun _ => a, rfl, fun news hn => ?_⟩
  obtain rfl := List.length_eq_zero_iff.1 hn
  exact ⟨h, fun g => by rw [hc, List.mapM_nil, map_pure]⟩

theorem visits_ident {id : Ident} {f : Ident → α} (h : ∀ new, R [new] (f new))
    (hc : ∀ {m : Type → Type} [Monad m] (g : Ident → m Ident) id,
      change m g (f id) = do return f (← g id)) : Visits change [id] R (f id) := by
  refine ⟨fun l => f (l.headD id), rfl, fun news hn => ?_⟩
  obtain ⟨new, rfl⟩ := List.length_eq_one_iff.1 hn
  exact ⟨h new, fun g => by simp [hc]⟩

theorem visits_map {f : β → α} (hx : Visits one B S b) (h : ∀ n b, S n b → R n (f b))
    (hc : ∀ {m : Type → Type} [Monad m] [LawfulMonad m] (g : Ident → m Ident) b,
      change m g (f b) = do return f (← one m g b)) : Visits change B R (f b) := by
  obtain ⟨build, rfl, hbuild⟩ := hx
  refine ⟨fun l => f (build l), rfl, fun news hn => ⟨h _ _ (hbuild news hn).1, fun g => ?_⟩⟩
  rw [hc, (hbuild news hn).2, bind_pure_comp, Functor.map_map]

theorem visits_two {f : β → γ → α} (hx : Visits one B S b) (hy : Visits two C T c)
    (h : ∀ n k b c, S n b → T k c → R (n ++ k) (f b c))
    (hc : ∀ {m : Type → Type} [Monad m] [LawfulMonad m] (g : Ident → m Ident) b c,
      change m g (f b c) = do return f (← one m g b) (← two m g c)) :
    Visits change (B ++ C) R (f b c) := by
  obtain ⟨first, rfl, hfirst⟩ := hx
  obtain ⟨second, rfl, hsecond⟩ := hy
  refine ⟨fun l => f (first (l.take B.length)) (second (l.drop B.length)), by simp,
    fun news hn => ?_⟩
  rw [List.length_append] at hn
  have htake : (news.take B.length).length = B.length := by rw [List.length_take]; omega
  obtain ⟨hb, hone⟩ := hfirst _ htake
  obtain ⟨hc', htwo⟩ := hsecond (news.drop B.length) (by rw [List.length_drop]; omega)
  refine ⟨?_, fun g => ?_⟩
  · have hboth := h _ _ _ _ hb hc'
    rwa [List.take_append_drop] at hboth
  · have hsplit := map_mapM_append (g := g) (fun l l' => f (first l) (second l'))
      (news.take B.length) (news.drop B.length)
    rw [List.take_append_drop, htake] at hsplit
    rw [hsplit, hc, hone, htwo]
    simp

theorem visits_three {f : β → γ → δ → α} (hx : Visits one B S b) (hy : Visits two C T c)
    (hz : Visits three D U d)
    (h : ∀ n k l b c d, S n b → T k c → U l d → R (n ++ k ++ l) (f b c d))
    (hc : ∀ {m : Type → Type} [Monad m] [LawfulMonad m] (g : Ident → m Ident) b c d,
      change m g (f b c d) = do return f (← one m g b) (← two m g c) (← three m g d)) :
    Visits change (B ++ C ++ D) R (f b c d) := by
  have hpair : Visits (fun m _ g p => do return (← one m g p.1, ← two m g p.2)) (B ++ C)
      (fun n p => ∃ k l, n = k ++ l ∧ S k p.1 ∧ T l p.2) (b, c) :=
    visits_two hx hy (fun n k _ _ hb hc => ⟨n, k, rfl, hb, hc⟩) fun _ _ _ => rfl
  refine visits_two (f := fun p d => f p.1 p.2 d) hpair hz ?_ fun g p d => ?_
  · rintro _ l p d ⟨n, k, rfl, hb, hc⟩ hd
    exact h n k l p.1 p.2 d hb hc hd
  · simp only [hc, bind_assoc, pure_bind]

theorem Visits.of_eq {a : α} (h : Visits change B R a) (hids : C = B) : Visits change C R a :=
  hids ▸ h

end Visits

/-! ## Events with other identifiers -/

/-- The second list of events is the first one with the identifiers `news`. -/
inductive Refill : (news : List Ident) → (old new : List ScopeEvent) → Prop where
  | nil : Refill [] [] []
  /-- An event without an identifier. -/
  | plain {e : ScopeEvent} (he : e.ident? = none) {news : List Ident} {es es' : List ScopeEvent}
      (h : Refill news es es') : Refill news (e :: es) (e :: es')
  | declare (id new : Ident) (kind : BindingKind) (exported loop : Bool) {news : List Ident}
      {es es' : List ScopeEvent} (h : Refill news es es') :
      Refill (new :: news) (.declare id kind exported loop :: es)
        (.declare new kind exported loop :: es')
  | refer (id new : Ident) (access : Access) (exported : Bool) {news : List Ident}
      {es es' : List ScopeEvent} (h : Refill news es es') :
      Refill (new :: news) (.refer id access exported :: es) (.refer new access exported :: es')

namespace Refill

open ScopeEvent (idents)

variable {news news' : List Ident} {es es' fs fs' : List ScopeEvent} {id new : Ident}
  {exported : Bool}

/-- Events are refilled by their own identifiers. -/
theorem refl (es : List ScopeEvent) : Refill (idents es) es es := by
  induction es with
  | nil => exact .nil
  | cons e rest ih =>
    cases e with
    | declare id kind exported loop => exact .declare id id kind exported loop ih
    | refer id access exported => exact .refer id id access exported ih
    | enter | leave | this => exact .plain rfl ih

theorem idents_eq (h : Refill news es es') : idents es' = news := by
  induction h with
  | nil => rfl
  | plain he _ ih => exact (List.filterMap_cons_none he).trans ih
  | declare id new | refer id new =>
    next ih => exact congrArg (new :: ·) ih

theorem append (h : Refill news es es') (k : Refill news' fs fs') :
    Refill (news ++ news') (es ++ fs) (es' ++ fs') := by
  induction h with
  | nil => exact k
  | plain he _ ih => exact .plain he ih
  | declare id new kind exported loop _ ih => exact .declare id new kind exported loop ih
  | refer id new access exported _ ih => exact .refer id new access exported ih

theorem one_declare {kind : BindingKind} {loop : Bool} :
    Refill [new] [.declare id kind exported loop] [.declare new kind exported loop] :=
  .declare id new kind exported loop .nil

theorem one_refer {access : Access} :
    Refill [new] [.refer id access exported] [.refer new access exported] :=
  .refer id new access exported .nil

theorem within (h : Refill news es es') (kind : ScopeKind) (loc : Span) (strict : Bool) :
    Refill news (ScopeEvent.within kind loc strict es)
      (ScopeEvent.within kind loc strict es') := by
  have hleave : Refill [] [.leave] [.leave] := .plain rfl .nil
  simpa [ScopeEvent.within] using
    Refill.plain (e := .enter kind loc strict) rfl (h.append hleave)

theorem loopScope (h : Refill news es es') {lexical lexical' : Bool}
    (hlexical : lexical' = lexical) (loc : Span) :
    Refill news (ScopeEvent.loopScope lexical loc es)
      (ScopeEvent.loopScope lexical' loc es') := by
  subst hlexical
  unfold ScopeEvent.loopScope
  split
  · exact h.within .block loc false
  · exact h

end Refill

/-! ## Views of a tree -/

/-- What is looked at in a node of a tree: its events, and something that the events of the
nodes around it depend on. -/
structure View (τ : Type) where
  tag : τ
  events : List ScopeEvent

/-- A view with other identifiers. -/
structure Renamed {τ : Type} (v : View τ) (news : List Ident) (v' : View τ) : Prop where
  tag : v'.tag = v.tag
  events : Refill news v.events v'.events

theorem Renamed.refl {τ : Type} (v : View τ) : Renamed v (ScopeEvent.idents v.events) v :=
  ⟨rfl, .refl v.events⟩

section Walks

open ScopeEvent (idents)

variable {α β γ δ τ σ ρ π : Type} {change : Change α} {one : Change β} {two : Change γ}
  {three : Change δ} {view : α → View τ} {first : β → View σ} {second : γ → View ρ}
  {third : δ → View π} {b : β} {c : γ} {d : δ}

/-- A change of identifiers meets those of `a` in order, and keeps everything else that can
be viewed. -/
def Walks (change : Change α) (view : α → View τ) (a : α) : Prop :=
  Visits change (idents (view a).events) (fun news a' => Renamed (view a) news (view a')) a

theorem walks_pure {a : α} (he : Refill [] (view a).events (view a).events)
    (hc : ∀ {m : Type → Type} [Monad m] (g : Ident → m Ident), change m g a = pure a := by
      intros
      rfl) : Walks change view a :=
  (visits_pure ⟨rfl, he⟩ hc).of_eq he.idents_eq

theorem walks_ident {id : Ident} {f : Ident → α}
    (he : ∀ new, Refill [new] (view (f id)).events (view (f new)).events)
    (ht : ∀ new, (view (f new)).tag = (view (f id)).tag := by intros; rfl)
    (hc : ∀ {m : Type → Type} [Monad m] (g : Ident → m Ident) id,
      change m g (f id) = do return f (← g id) := by intros; rfl) : Walks change view (f id) :=
  (visits_ident (fun new => ⟨ht new, he new⟩) hc).of_eq (he id).idents_eq

theorem walks_map {f : β → α} (hx : Walks one first b)
    (he : ∀ {b' n}, Renamed (first b) n (first b') →
      Refill n (view (f b)).events (view (f b')).events := by
        intro _ _ h
        exact h.events)
    (ht : ∀ b', (first b').tag = (first b).tag → (view (f b')).tag = (view (f b)).tag := by
      intros
      rfl)
    (hc : ∀ {m : Type → Type} [Monad m] [LawfulMonad m] (g : Ident → m Ident) b,
      change m g (f b) = do return f (← one m g b) := by intros; rfl) : Walks change view (f b) :=
  (visits_map hx (fun _ b' h => ⟨ht b' h.tag, he h⟩) hc).of_eq (he (.refl _)).idents_eq

theorem walks_two {f : β → γ → α} (hx : Walks one first b) (hy : Walks two second c)
    (he : ∀ {b' c' n k}, Renamed (first b) n (first b') → Renamed (second c) k (second c') →
      Refill (n ++ k) (view (f b c)).events (view (f b' c')).events := by
        intro _ _ _ _ h k
        exact h.events.append k.events)
    (ht : ∀ b' c', (first b').tag = (first b).tag → (second c').tag = (second c).tag →
      (view (f b' c')).tag = (view (f b c)).tag := by
        intros
        rfl)
    (hc : ∀ {m : Type → Type} [Monad m] [LawfulMonad m] (g : Ident → m Ident) b c,
      change m g (f b c) = do return f (← one m g b) (← two m g c) := by intros; rfl) :
    Walks change view (f b c) :=
  (visits_two hx hy (fun _ _ b' c' h k => ⟨ht b' c' h.tag k.tag, he h k⟩) hc).of_eq
    (he (.refl _) (.refl _)).idents_eq

theorem walks_three {f : β → γ → δ → α} (hx : Walks one first b) (hy : Walks two second c)
    (hz : Walks three third d)
    (he : ∀ {b' c' d' n k l}, Renamed (first b) n (first b') → Renamed (second c) k (second c') →
      Renamed (third d) l (third d') →
      Refill (n ++ k ++ l) (view (f b c d)).events (view (f b' c' d')).events := by
        intro _ _ _ _ _ _ h k l
        exact (h.events.append k.events).append l.events)
    (ht : ∀ b' c' d', (view (f b' c' d')).tag = (view (f b c d)).tag := by intros; rfl)
    (hc : ∀ {m : Type → Type} [Monad m] [LawfulMonad m] (g : Ident → m Ident) b c d,
      change m g (f b c d) = do return f (← one m g b) (← two m g c) (← three m g d) := by
        intros
        rfl) :
    Walks change view (f b c d) :=
  (visits_three hx hy hz (fun _ _ _ b' c' d' h k l => ⟨ht b' c' d', he h k l⟩) hc).of_eq
    (he (.refl _) (.refl _) (.refl _)).idents_eq

end Walks

end Laconic
