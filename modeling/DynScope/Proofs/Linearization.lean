import DynScope.Proofs.FirstAppearance

/-!
# DynScope.Proofs.Linearization

**Interners shared by clients that take turns.** A client interns a text in one section that
only reads, which answers it if the text is there, and otherwise in a second section, which
looks again before it enters the text. Between the two any number of other clients may have
been at work, on the same text or on others. A look-up is one section.

However the sections of the clients follow one another, the calls have replies as if they had
been made one after the other, in the order in which they took effect
(`Shared.run_linearizable`).

How it works:

* In a section in which a call takes effect, be it the first or the second one, the interners
  and the reply become what a sequential interner makes of the request (`Shared.step_cases`).
  For the second section that is due to the second look.
* So the calls that have taken effect, in their order, are a sequential run. What holds of such
  runs, by the list of first appearances, holds of the shared interners.
* Of its own calls, a client has replies to those that have taken effect but for the last one,
  and it has made those and at most one more (`Shared.InStep`). So every call takes effect
  after it is made and before it is answered.
-/

namespace DynScope.Interner

variable {γ κ : Type}

/-! ### Clients in turn -/

/-- How far a client has come with its call. -/
inductive Phase (κ : Type) where
  /-- It makes no call. -/
  | idle
  /-- The call is made, and none of its sections has run. -/
  | called (r : Request κ)
  /-- The section that reads has not found the text, which is to be interned. -/
  | missed (key : κ) (text : String)
  /-- The call has taken effect, and the client is still without the reply. -/
  | served (r : Request κ) (a : Reply)

/-- A request of a client, with the reply to it. -/
structure Exchange (γ κ : Type) where
  /-- Who asks. -/
  client : γ
  /-- What is asked. -/
  request : Request κ
  /-- What is answered. -/
  reply : Reply

/-- Something that happens to a call. -/
inductive Moment (γ κ : Type) where
  /-- A client makes it. -/
  | call (c : γ) (r : Request κ)
  /-- It takes effect. -/
  | effect (x : Exchange γ κ)
  /-- The client gets the reply. -/
  | reply (x : Exchange γ κ)

/-- Interners with the clients that use them. -/
structure Shared (γ κ : Type) where
  /-- The interners. -/
  tables : κ → Interner
  /-- How far each of the clients has come. -/
  phase : γ → Phase κ
  /-- What has happened so far, in order. Nothing that happens depends on it. -/
  history : List (Moment γ κ)

/-- Whose turn it is, and what for. -/
inductive Turn (γ κ : Type) where
  /-- An idle client makes a call. -/
  | call (c : γ) (r : Request κ)
  /-- A client goes on with its call, by one section or by taking the reply. -/
  | resume (c : γ)

namespace Shared

variable [DecidableEq γ] [DecidableEq κ]

/-- New interners, and clients that are idle. -/
def start : Shared γ κ := ⟨fun _ => Interner.empty, fun _ => .idle, []⟩

/-- The call of a client takes effect, with a reply, and leaves the interners `ts`. -/
def serve (s : Shared γ κ) (c : γ) (r : Request κ) (a : Reply) (ts : κ → Interner) :
    Shared γ κ where
  tables := ts
  phase := Function.update s.phase c (.served r a)
  history := s.history ++ [.effect ⟨c, r, a⟩]

/-- The first section of a call. It changes no interner. -/
def read (s : Shared γ κ) (c : γ) : Request κ → Shared γ κ
  | .intern k text =>
    match (s.tables k).find? text with
    | some n => s.serve c (.intern k text) (.name n) s.tables
    | none => { s with phase := Function.update s.phase c (.missed k text) }
  | .lookup k n => s.serve c (.lookup k n) (.text ((s.tables k).text n)) s.tables

/-- The section that enters a text, unless another client has entered it by now. -/
def write (s : Shared γ κ) (c : γ) (k : κ) (text : String) : Shared γ κ :=
  let (n, t) := (s.tables k).enroll text
  s.serve c (.intern k text) (.name n) (Function.update s.tables k t)

/-- One turn. Where it does not fit the phase of the client, nothing happens. -/
def step (s : Shared γ κ) : Turn γ κ → Shared γ κ
  | .call c r =>
    match s.phase c with
    | .idle =>
      { s with
        phase := Function.update s.phase c (.called r)
        history := s.history ++ [.call c r] }
    | _ => s
  | .resume c =>
    match s.phase c with
    | .idle => s
    | .called r => s.read c r
    | .missed k text => s.write c k text
    | .served r a =>
      { s with
        phase := Function.update s.phase c .idle
        history := s.history ++ [.reply ⟨c, r, a⟩] }

/-- What has come about after some turns. -/
def run (turns : List (Turn γ κ)) : Shared γ κ := turns.foldl step start

theorem run_concat (turns : List (Turn γ κ)) (t : Turn γ κ) :
    run (turns ++ [t]) = (run turns).step t := by
  rw [run, List.foldl_append, ← run]
  rfl

end Shared

/-! ### Histories -/

/-- The request of a call that has not taken effect yet. -/
def Phase.open? : Phase κ → Option (Request κ)
  | .called r => some r
  | .missed k text => some (.intern k text)
  | .idle | .served .. => none

/-- What a client is yet to be answered in a call that has taken effect. -/
def Phase.due? (c : γ) : Phase κ → Option (Exchange γ κ)
  | .served r a => some ⟨c, r, a⟩
  | .idle | .called _ | .missed .. => none

namespace Moment

/-- Whose call it is. -/
def client : Moment γ κ → γ
  | .call c _ => c
  | .effect x | .reply x => x.client

/-- The request that the client makes, if that is what happens. -/
def callOf? [DecidableEq γ] (c : γ) : Moment γ κ → Option (Request κ)
  | .call c' r => if c' = c then some r else none
  | .effect _ | .reply _ => none

/-- The exchange that takes effect, if one does. -/
def effect? : Moment γ κ → Option (Exchange γ κ)
  | .effect x => some x
  | .call .. | .reply _ => none

/-- The exchange that comes to its end, if one does. -/
def reply? : Moment γ κ → Option (Exchange γ κ)
  | .reply x => some x
  | .call .. | .effect _ => none

end Moment

/-- The exchanges that have taken effect, in the order in which they did. -/
def effects (h : List (Moment γ κ)) : List (Exchange γ κ) := h.filterMap (·.effect?)

theorem effects_concat (h : List (Moment γ κ)) (m : Moment γ κ) :
    effects (h ++ [m]) = effects h ++ m.effect?.toList := by
  rw [effects, List.filterMap_append, ← effects]
  cases hm : m.effect? <;> simp [hm]

section OneClient

variable [DecidableEq γ] (c : γ) (h : List (Moment γ κ))

/-- The requests that a client has made, in order. -/
def callsOf : List (Request κ) := h.filterMap (·.callOf? c)

/-- The exchanges of a client that have taken effect, in order. -/
def effectsOf : List (Exchange γ κ) := (effects h).filter (·.client = c)

/-- The exchanges of a client that it has the reply of, in order. -/
def repliesOf : List (Exchange γ κ) := (h.filterMap (·.reply?)).filter (·.client = c)

end OneClient

/-! ### What a turn does -/

section Steps

variable [DecidableEq γ] [DecidableEq κ] (s : Shared γ κ)

theorem Request.serve_intern (ts : κ → Interner) (k : κ) (text : String) :
    (Request.intern k text).serve ts =
      (.name ((ts k).intern text).1, Function.update ts k ((ts k).intern text).2) := rfl

namespace Shared

/-- In the section that reads, a call takes effect as in a sequential interner, unless it is to
intern a text that is not found. -/
theorem read_cases (c : γ) (r : Request κ) :
    s.read c r = s.serve c r (r.serve s.tables).1 (r.serve s.tables).2 ∨
      ∃ k text, r = .intern k text ∧
        s.read c r = { s with phase := Function.update s.phase c (.missed k text) } := by
  cases r with
  | lookup k n => exact Or.inl rfl
  | intern k text =>
      cases h : (s.tables k).find? text with
      | none => exact Or.inr ⟨k, text, rfl, by simp only [read, h]⟩
      | some n =>
          refine Or.inl ?_
          rw [Request.serve_intern, intern_of_find?_eq_some h, Function.update_eq_self]
          simp only [read, h]

/-- In the section that writes, the call takes effect as in a sequential interner, whatever has
been entered since the text was not found. -/
theorem write_eq (c : γ) (k : κ) (text : String) :
    s.write c k text = s.serve c (.intern k text) ((Request.intern k text).serve s.tables).1
      ((Request.intern k text).serve s.tables).2 := by
  rw [Request.serve_intern, intern_eq_enroll]
  rfl

/-- **What a turn does**: nothing; or a client makes a call; or it does not find a text; or its
call takes effect, by what a sequential interner does; or it gets its reply. -/
theorem step_cases (t : Turn γ κ) :
    s.step t = s ∨
      (∃ c r, s.phase c = .idle ∧ s.step t = { s with
        phase := Function.update s.phase c (.called r)
        history := s.history ++ [.call c r] }) ∨
      (∃ c k text, s.phase c = .called (.intern k text) ∧ s.step t = { s with
        phase := Function.update s.phase c (.missed k text) }) ∨
      (∃ c r, (s.phase c).open? = some r ∧
        s.step t = s.serve c r (r.serve s.tables).1 (r.serve s.tables).2) ∨
      ∃ c r a, s.phase c = .served r a ∧ s.step t = { s with
        phase := Function.update s.phase c .idle
        history := s.history ++ [.reply ⟨c, r, a⟩] } := by
  cases t with
  | call c r =>
      cases hp : s.phase c with
      | idle => exact Or.inr (Or.inl ⟨c, r, hp, by simp only [step, hp]⟩)
      | called _ | missed _ _ | served _ _ => exact Or.inl (by simp only [step, hp])
  | resume c =>
      cases hp : s.phase c with
      | idle => exact Or.inl (by simp only [step, hp])
      | called r =>
          have hstep : s.step (.resume c) = s.read c r := by simp only [step, hp]
          rw [hstep]
          rcases s.read_cases c r with hread | ⟨k, text, rfl, hread⟩
          · exact Or.inr (Or.inr (Or.inr (Or.inl ⟨c, r, by rw [hp, Phase.open?], hread⟩)))
          · exact Or.inr (Or.inr (Or.inl ⟨c, k, text, hp, hread⟩))
      | missed k text =>
          have hstep : s.step (.resume c) = s.write c k text := by simp only [step, hp]
          rw [hstep, write_eq]
          exact Or.inr (Or.inr (Or.inr (Or.inl ⟨c, _, by rw [hp, Phase.open?], rfl⟩)))
      | served r a =>
          exact Or.inr (Or.inr (Or.inr (Or.inr ⟨c, r, a, hp, by simp only [step, hp]⟩)))

end Shared

end Steps

/-! ### Every client is in step -/

section Clients

variable [DecidableEq γ] {c : γ} {p : Phase κ} {h : List (Moment γ κ)}

/-- Of its own calls, a client in phase `p` has made those that have taken effect and, before it
has taken effect, the one at hand; and it has the replies of those that have taken effect, but for
the reply that is due. -/
structure InStep (c : γ) (p : Phase κ) (h : List (Moment γ κ)) : Prop where
  /-- The calls that were made. -/
  calls : callsOf c h = (effectsOf c h).map (·.request) ++ p.open?.toList
  /-- The calls that have taken effect. -/
  effects : effectsOf c h = repliesOf c h ++ (p.due? c).toList

theorem callsOf_concat (m : Moment γ κ) :
    callsOf c (h ++ [m]) = callsOf c h ++ (m.callOf? c).toList := by
  rw [callsOf, List.filterMap_append, ← callsOf]
  cases hm : m.callOf? c <;> simp [hm]

theorem effectsOf_concat (m : Moment γ κ) :
    effectsOf c (h ++ [m]) = effectsOf c h ++ m.effect?.toList.filter (·.client = c) := by
  rw [effectsOf, effects_concat, List.filter_append, ← effectsOf]

theorem repliesOf_concat (m : Moment γ κ) :
    repliesOf c (h ++ [m]) = repliesOf c h ++ m.reply?.toList.filter (·.client = c) := by
  rw [repliesOf, List.filterMap_append, List.filter_append, ← repliesOf]
  cases hm : m.reply? <;> simp [hm]

namespace InStep

theorem start (c : γ) : InStep (κ := κ) c .idle [] := ⟨rfl, rfl⟩

theorem call (hc : InStep c .idle h) (r : Request κ) :
    InStep c (.called r) (h ++ [.call c r]) := by
  obtain ⟨hcalls, heffects⟩ := hc
  constructor
  · rw [callsOf_concat, effectsOf_concat, hcalls]
    simp [Moment.callOf?, Moment.effect?, Phase.open?]
  · rw [effectsOf_concat, repliesOf_concat, heffects]
    simp [Moment.effect?, Moment.reply?, Phase.due?]

theorem miss {k : κ} {text : String} (hc : InStep c (.called (.intern k text)) h) :
    InStep c (.missed k text) h := ⟨hc.calls, hc.effects⟩

theorem serve {r : Request κ} (hc : InStep c p h) (hp : p.open? = some r) (a : Reply) :
    InStep c (.served r a) (h ++ [.effect ⟨c, r, a⟩]) := by
  obtain ⟨hcalls, heffects⟩ := hc
  -- A client whose call is open waits for no reply.
  have hdue : p.due? c = none := by
    cases p with
    | served _ _ => cases hp
    | idle | called _ | missed _ _ => rfl
  constructor
  · rw [callsOf_concat, effectsOf_concat, hcalls, hp]
    simp [Moment.callOf?, Moment.effect?, Phase.open?]
  · rw [effectsOf_concat, repliesOf_concat, heffects, hdue]
    simp [Moment.effect?, Moment.reply?, Phase.due?]

theorem reply {r : Request κ} {a : Reply} (hc : InStep c (.served r a) h) :
    InStep c .idle (h ++ [.reply ⟨c, r, a⟩]) := by
  obtain ⟨hcalls, heffects⟩ := hc
  constructor
  · rw [callsOf_concat, effectsOf_concat, hcalls]
    simp [Moment.callOf?, Moment.effect?, Phase.open?]
  · rw [effectsOf_concat, repliesOf_concat, heffects]
    simp [Moment.effect?, Moment.reply?, Phase.due?]

/-- What happens to the call of another client makes no difference. -/
theorem other (hc : InStep c p h) {m : Moment γ κ} (hm : m.client ≠ c) :
    InStep c p (h ++ [m]) := by
  obtain ⟨hcalls, heffects⟩ := hc
  have hcall : m.callOf? c = none := by
    cases m with
    | call c' r => exact if_neg hm
    | effect x | reply x => rfl
  have heffect : m.effect?.toList.filter (·.client = c) = [] := by
    cases m with
    | effect x =>
        have hne : x.client ≠ c := hm
        simp [Moment.effect?, hne]
    | call c' r | reply x => rfl
  have hreply : m.reply?.toList.filter (·.client = c) = [] := by
    cases m with
    | reply x =>
        have hne : x.client ≠ c := hm
        simp [Moment.reply?, hne]
    | call c' r | effect x => rfl
  constructor
  · rw [callsOf_concat, effectsOf_concat, hcall, heffect, hcalls]
    simp
  · rw [effectsOf_concat, repliesOf_concat, heffect, hreply, heffects]
    simp

/-- A client is at most one call ahead of its replies, and of its calls none takes effect before
it is made or after it is answered. -/
theorem prefixes (hc : InStep c p h) :
    repliesOf c h <+: effectsOf c h ∧ (effectsOf c h).map (·.request) <+: callsOf c h ∧
      (callsOf c h).length ≤ (repliesOf c h).length + 1 := by
  obtain ⟨hcalls, heffects⟩ := hc
  refine ⟨⟨_, heffects.symm⟩, ⟨_, hcalls.symm⟩, ?_⟩
  rw [hcalls, heffects]
  cases p <;> simp [Phase.open?, Phase.due?]

end InStep

end Clients

section Runs

variable [DecidableEq γ] [DecidableEq κ]

/-- Each turn keeps every client in step. -/
theorem Shared.step_inStep {s : Shared γ κ} (h : ∀ c, InStep c (s.phase c) s.history)
    (t : Turn γ κ) (c : γ) : InStep c ((s.step t).phase c) (s.step t).history := by
  have hself := h c
  obtain hstep | ⟨c', r, hp, hstep⟩ | ⟨c', k, text, hp, hstep⟩ | ⟨c', r, hp, hstep⟩ |
    ⟨c', r, a, hp, hstep⟩ := s.step_cases t
  · rw [hstep]
    exact hself
  · rw [hstep]
    by_cases hc : c' = c
    · subst hc
      rw [hp] at hself
      simpa using hself.call r
    · simpa [Function.update_of_ne (Ne.symm hc)] using
        hself.other (m := .call c' r) hc
  · rw [hstep]
    by_cases hc : c' = c
    · subst hc
      rw [hp] at hself
      simpa using hself.miss
    · simpa [Function.update_of_ne (Ne.symm hc)] using hself
  · rw [hstep]
    by_cases hc : c' = c
    · subst hc
      simpa [serve] using hself.serve hp _
    · simpa [serve, Function.update_of_ne (Ne.symm hc)] using
        hself.other (m := .effect ⟨c', r, _⟩) hc
  · rw [hstep]
    by_cases hc : c' = c
    · subst hc
      rw [hp] at hself
      simpa using hself.reply
    · simpa [Function.update_of_ne (Ne.symm hc)] using
        hself.other (m := .reply ⟨c', r, a⟩) hc

theorem Shared.run_inStep (turns : List (Turn γ κ)) (c : γ) :
    InStep c ((run turns).phase c) (run turns).history := by
  induction turns using List.reverseRecOn generalizing c with
  | nil => exact .start c
  | append_singleton turns t ih =>
      rw [run_concat]
      exact step_inStep ih t c

/-- What has happened up to some moment is all that has happened after fewer turns. -/
theorem Shared.exists_run_of_prefix {past : List (Moment γ κ)} {turns : List (Turn γ κ)}
    (h : past <+: (run turns).history) : ∃ earlier, (run earlier).history = past := by
  induction turns using List.reverseRecOn with
  | nil => exact ⟨[], (List.prefix_nil.mp h).symm⟩
  | append_singleton turns t ih =>
      -- A turn adds one moment at most, so a prefix is the whole or a prefix of what was before.
      have hgrows : (run (turns ++ [t])).history = (run turns).history ∨
          ∃ m, (run (turns ++ [t])).history = (run turns).history ++ [m] := by
        rw [run_concat]
        obtain hstep | ⟨_, _, _, hstep⟩ | ⟨_, _, _, _, hstep⟩ | ⟨_, _, _, hstep⟩ |
          ⟨_, _, _, _, hstep⟩ := (run turns).step_cases t
        all_goals rw [hstep]
        · exact Or.inl rfl
        · exact Or.inr ⟨_, rfl⟩
        · exact Or.inl rfl
        · exact Or.inr ⟨_, rfl⟩
        · exact Or.inr ⟨_, rfl⟩
      rcases hgrows with heq | ⟨m, heq⟩
      · rw [heq] at h
        exact ih h
      · rw [heq, List.prefix_concat_iff] at h
        rcases h with rfl | h
        · exact ⟨turns ++ [t], heq⟩
        · exact ih h

end Runs

/-! ### The order of the effects -/

section Order

variable [DecidableEq κ]

/-- The replies to requests that are made one after the other. -/
def answersFrom (ts : κ → Interner) : List (Request κ) → List Reply
  | [] => []
  | r :: rest => (r.serve ts).1 :: answersFrom (r.serve ts).2 rest

/-- The replies of new interners to requests that are made one after the other. -/
def answers (requests : List (Request κ)) : List Reply := answersFrom (fun _ => empty) requests

theorem answersFrom_append (ts : κ → Interner) (rs rs' : List (Request κ)) :
    answersFrom ts (rs ++ rs') =
      answersFrom ts rs ++ answersFrom (rs.foldl (fun ts r => (r.serve ts).2) ts) rs' := by
  induction rs generalizing ts with
  | nil => rfl
  | cons r rs ih =>
      rw [List.cons_append, answersFrom, ih, answersFrom]
      rfl

theorem length_answersFrom (ts : κ → Interner) (rs : List (Request κ)) :
    (answersFrom ts rs).length = rs.length := by
  induction rs generalizing ts with
  | nil => rfl
  | cons r rs ih => rw [answersFrom, List.length_cons, List.length_cons, ih]

theorem answers_concat (rs : List (Request κ)) (r : Request κ) :
    answers (rs ++ [r]) = answers rs ++ [(r.serve (serveAll rs)).1] :=
  answersFrom_append _ rs [r]

theorem serveAll_concat (rs : List (Request κ)) (r : Request κ) :
    serveAll (rs ++ [r]) = (r.serve (serveAll rs)).2 := by
  rw [serveAll, List.foldl_append, ← serveAll]
  rfl

/-- In a sequential run, each reply is that of the interners that the requests before it have
made. -/
theorem reply_of_split {order before after : List (Exchange γ κ)} {x : Exchange γ κ}
    (h : order.map (·.reply) = answers (order.map (·.request)))
    (hsplit : order = before ++ x :: after) :
    x.reply = (x.request.serve (serveAll (before.map (·.request)))).1 := by
  rw [hsplit, List.map_append, List.map_append, answers, answersFrom_append] at h
  have hlength : (before.map (·.reply)).length =
      (answersFrom (fun _ => empty) (before.map (·.request))).length := by
    rw [length_answersFrom, List.length_map, List.length_map]
  have htail := (List.append_inj h hlength).2
  rw [List.map_cons, List.map_cons, answersFrom] at htail
  exact (List.cons.inj htail).1

theorem given_append_intern (k : κ) (text : String) (before after : List (Request κ)) :
    given k (before ++ .intern k text :: after) = given k before ++ text :: given k after := by
  simp [given]

/-- In a sequential run, a text is answered by the name that it has after the texts that were
interned before. -/
theorem intern_reply_of_split {order before after : List (Exchange γ κ)} {c : γ} {k : κ}
    {text : String} {a : Reply} (h : order.map (·.reply) = answers (order.map (·.request)))
    (hsplit : order = before ++ ⟨c, .intern k text, a⟩ :: after) :
    a = .name ((reached (given k (before.map (·.request)))).intern text).1 := by
  have ha := reply_of_split h hsplit
  simpa only [Request.serve_intern, serveAll_eq_reached] using ha

/-- In a sequential run, a name is answered by the text that it has after the texts that were
interned before. -/
theorem lookup_reply_of_split {order before after : List (Exchange γ κ)} {c : γ} {k : κ}
    {n : Name} {a : Reply} (h : order.map (·.reply) = answers (order.map (·.request)))
    (hsplit : order = before ++ ⟨c, .lookup k n, a⟩ :: after) :
    a = .text ((reached (given k (before.map (·.request)))).text n) := by
  have ha := reply_of_split h hsplit
  simpa only [Request.serve, serveAll_eq_reached] using ha

/-- **The order of the effects is a sequential run**: it makes the interners that there are, and
its replies are those that were given. -/
theorem Shared.run_sequential [DecidableEq γ] (turns : List (Turn γ κ)) :
    (run turns).tables = serveAll ((effects (run turns).history).map (·.request)) ∧
      (effects (run turns).history).map (·.reply) =
        answers ((effects (run turns).history).map (·.request)) := by
  induction turns using List.reverseRecOn with
  | nil => exact ⟨rfl, rfl⟩
  | append_singleton turns t ih =>
      obtain ⟨htables, hreplies⟩ := ih
      rw [run_concat]
      obtain hstep | ⟨c, r, -, hstep⟩ | ⟨c, k, text, -, hstep⟩ | ⟨c, r, -, hstep⟩ |
        ⟨c, r, a, -, hstep⟩ := (run turns).step_cases t
      all_goals rw [hstep]
      · exact ⟨htables, hreplies⟩
      · simpa [effects_concat, Moment.effect?] using And.intro htables hreplies
      · exact ⟨htables, hreplies⟩
      · constructor
        · simp only [serve, effects_concat, Moment.effect?, Option.toList_some, List.map_append,
            List.map_singleton, serveAll_concat, ← htables]
        · simp only [serve, effects_concat, Moment.effect?, Option.toList_some, List.map_append,
            List.map_singleton, answers_concat, ← htables, hreplies]
      · simpa [effects_concat, Moment.effect?] using And.intro htables hreplies

end Order

/-! ### Linearizability -/

section Results

variable [DecidableEq γ] [DecidableEq κ]

theorem Shared.tables_eq_reached (turns : List (Turn γ κ)) (k : κ) :
    (run turns).tables k =
      reached (given k ((effects (run turns).history).map (·.request))) := by
  rw [(run_sequential turns).1, serveAll_eq_reached]

/-- A text that was interned is answered by its name, which the interner has for it from then
on. -/
theorem Shared.find?_of_mem_effects {turns : List (Turn γ κ)} {c : γ} {k : κ} {text : String}
    {a : Reply} (h : ⟨c, .intern k text, a⟩ ∈ effects (run turns).history) :
    ∃ n, a = .name n ∧ ((run turns).tables k).find? text = some n := by
  obtain ⟨before, after, hsplit⟩ := List.append_of_mem h
  refine ⟨_, intern_reply_of_split (run_sequential turns).2 hsplit, ?_⟩
  rw [tables_eq_reached, hsplit, List.map_append, List.map_cons, given_append_intern,
    find?_reached_intern]

/-- **Shared interners are linearizable.** Whatever calls are made by however many clients, and
however their sections follow one another: the two directions of each interner are inverse to
each other; and the calls that have taken effect, in the order in which they did, are a
sequential run, which makes the interners that there are and gives each call the reply that it
got. This order has every call between the moments at which it is made and answered, since at
any time the replies that a client has got are those of its first calls to take effect, these
are the first calls that it has made, and it has made at most one more than it has replies of.

So a text has one name and a name one text, whoever interned it; and a name that was given out
stands for its text from then on, for every client that looks it up. -/
theorem Shared.run_linearizable (turns : List (Turn γ κ)) :
    let s : Shared γ κ := run turns
    let order := effects s.history
    (∀ k, (s.tables k).WellFormed) ∧
    s.tables = serveAll (order.map (·.request)) ∧
    order.map (·.reply) = answers (order.map (·.request)) ∧
    (∀ past, past <+: s.history → ∀ c,
      repliesOf c past <+: effectsOf c past ∧
      (effectsOf c past).map (·.request) <+: callsOf c past ∧
      (callsOf c past).length ≤ (repliesOf c past).length + 1) ∧
    (∀ c c' k text text' n n', ⟨c, .intern k text, .name n⟩ ∈ order →
      ⟨c', .intern k text', .name n'⟩ ∈ order → (n = n' ↔ text = text')) ∧
    ∀ before c k text n after, order = before ++ ⟨c, .intern k text, .name n⟩ :: after →
      (s.tables k).text n = text ∧ ∀ c' a, ⟨c', .lookup k n, a⟩ ∈ after → a = .text text := by
  intro s order
  obtain ⟨htables, hreplies⟩ := run_sequential turns
  have hwf : ∀ k, (s.tables k).WellFormed := by
    intro k
    rw [tables_eq_reached]
    exact wellFormed_reached _
  refine ⟨hwf, htables, hreplies, ?_, ?_, ?_⟩
  · intro past hpast c
    obtain ⟨earlier, rfl⟩ := exists_run_of_prefix hpast
    exact (run_inStep earlier c).prefixes
  · intro c c' k text text' n n' hx hx'
    obtain ⟨_, hn, hfind⟩ := find?_of_mem_effects hx
    obtain ⟨_, hn', hfind'⟩ := find?_of_mem_effects hx'
    cases hn
    cases hn'
    constructor
    · rintro rfl
      -- One name stands for one text.
      obtain ⟨-, htext⟩ := ((hwf k).find?_eq_some_iff text n).mp hfind
      obtain ⟨-, htext'⟩ := ((hwf k).find?_eq_some_iff text' n).mp hfind'
      exact htext.symm.trans htext'
    · rintro rfl
      exact Option.some.inj (hfind.symm.trans hfind')
  · intro before c k text n after hsplit
    have hmem : ⟨c, .intern k text, .name n⟩ ∈ order := by
      rw [hsplit]
      exact List.mem_append_right _ List.mem_cons_self
    obtain ⟨_, hn, hfind⟩ := find?_of_mem_effects hmem
    cases hn
    refine ⟨((hwf k).find?_eq_some_iff text n |>.mp hfind).2, ?_⟩
    intro c' a hlater
    obtain ⟨between, rest, hrest⟩ := List.append_of_mem hlater
    have hsplit' : order = (before ++ ⟨c, .intern k text, .name n⟩ :: between) ++
        ⟨c', .lookup k n, a⟩ :: rest := by
      rw [hsplit, hrest, List.append_assoc, List.cons_append]
    -- The name is the one that the text had got before the look-up took effect.
    have hname := Reply.name.inj (intern_reply_of_split hreplies hsplit)
    rw [lookup_reply_of_split hreplies hsplit', hname, List.map_append, List.map_cons,
      given_append_intern, text_reached_intern]

/-- The clients 0 and 1 both look for `x` in vain. Then client 2 enters `y`, client 1 enters `x`,
and client 0 finds it when it looks again. -/
example :
    let race : List (Turn Nat Unit) :=
      [.call 0 (.intern () "x"), .call 1 (.intern () "x"), .resume 0, .resume 1,
        .call 2 (.intern () "y"), .resume 2, .resume 2, .resume 1, .resume 0, .resume 0, .resume 1]
    (effects (Shared.run race).history).map (fun x => (x.client, x.reply)) =
      [(2, .name ⟨1⟩), (1, .name ⟨2⟩), (0, .name ⟨2⟩)] := by
  decide +kernel

end Results

end DynScope.Interner
