import Monkey.Token

/-!
# Replies

What comes of reading a part of a program from the front of a list of tokens: the part or the
error that ended it, what happened on the way, and the tokens left over.

Two things that happen are events (`Parse.Event`): a statement is begun, and an error is found,
which may end the part or only a statement in a block of it. Each happens somewhere in the
source, and the place is given by the tokens from there on: the token that a statement begins
with or that is to blame for an error is the first of them, and there are none at the end of
the source.

What is left over is a final segment of what was given, and the reply carries the proof: it is
what makes reading come to an end.
-/

namespace Monkey

/-! ## Syntax errors -/

/-- Why a statement could not be read. -/
inductive SyntaxError where
  /-- A token of a certain kind must come next. -/
  | unexpected (expected : Token.Kind) (got : Token)
  /-- An expression must come next, and no expression starts with the token. -/
  | noExpression (got : Token)
  deriving DecidableEq, Repr

namespace SyntaxError

/-- The token that is to blame. -/
def got : SyntaxError → Token
  | unexpected _ t => t
  | noExpression t => t

/-- The wording of an error, in terms of the kinds of tokens. -/
def message : SyntaxError → String
  | unexpected expected got =>
    "expected next token to be " ++ expected.name ++ ", got " ++ got.kind.name
  | noExpression got => "no prefix parse function for " ++ got.kind.name ++ " found"

end SyntaxError

/-! ## Events -/

namespace Parse

/-- What happens on the way, and the tokens from there on. -/
inductive Event where
  /-- A statement is begun. -/
  | begun (here : List Token)
  /-- An error is found, for which the first token is to blame, or the end of the source. -/
  | found (e : SyntaxError) (here : List Token)
  deriving DecidableEq

namespace Event

/-- The tokens from where it happens. -/
def here : Event → List Token
  | begun ts => ts
  | found _ ts => ts

/-- The tokens from where a statement is begun, if this is what happens. -/
def begun? : Event → Option (List Token)
  | begun ts => some ts
  | found _ _ => none

/-- The error with the tokens from the one to blame, if an error is found. -/
def found? : Event → Option (SyntaxError × List Token)
  | begun _ => none
  | found e ts => some (e, ts)

end Event

/-- The places where statements are begun, in order. -/
def begunIn (events : List Event) : List (List Token) :=
  events.filterMap Event.begun?

/-- The errors that are found with the places of the tokens to blame, in order. -/
def foundIn (events : List Event) : List (SyntaxError × List Token) :=
  events.filterMap Event.found?

section

variable (events events' : List Event)

theorem begunIn_append : begunIn (events ++ events') = begunIn events ++ begunIn events' :=
  List.filterMap_append

theorem foundIn_append : foundIn (events ++ events') = foundIn events ++ foundIn events' :=
  List.filterMap_append

end

end Parse

/-! ## Replies -/

/-- What comes of reading an `α` from the tokens `given`, or from what follows
    some of them. -/
structure Reply (α : Type) (given : List Token) where
  /-- What was read, or the error that ended it. -/
  result : Except SyntaxError α
  /-- What happened on the way, in order. -/
  events : List Parse.Event
  /-- The tokens left over. -/
  rest : List Token
  /-- Tokens are only left over at the end. -/
  rest_suffix : rest <:+ given
  /-- The error that ended it has been found. -/
  found_of_error {e : SyntaxError} : result = .error e → Parse.foundIn events ≠ []

namespace Reply

variable {α β : Type} {given larger : List Token}

/-- Reads `a` without another look at the tokens. -/
def done (a : α) (given : List Token) : Reply α given :=
  ⟨.ok a, [], given, List.suffix_rfl, nofun⟩

/-- Ends with an error, before the tokens `given`. The first of the tokens `here` is to blame
    for it. -/
def fail (e : SyntaxError) (here given : List Token) : Reply α given :=
  ⟨.error e, [.found e here], given, List.suffix_rfl, fun _ => List.cons_ne_nil _ _⟩

/-- The same reply, to more tokens. -/
def widen (r : Reply α given) (h : given <:+ larger) : Reply α larger :=
  ⟨r.result, r.events, r.rest, r.rest_suffix.trans h, r.found_of_error⟩

/-- The same reply, to one more token. -/
def cons (t : Token) (r : Reply α given) : Reply α (t :: given) :=
  r.widen (List.suffix_cons t given)

/-- The same reply, to the tokens with the first of them. -/
def ofTail (r : Reply α given.tail) : Reply α given :=
  r.widen (List.tail_suffix given)

/-- Goes on from the tokens left over, if there is no error. -/
def andThen (r : Reply α given)
    (next : α → (ts : List Token) → ts <:+ given → Reply β ts) : Reply β given :=
  match r with
  | ⟨.ok a, events, rest, hrest, _⟩ =>
    let s := next a rest hrest
    { result := s.result
      events := events ++ s.events
      rest := s.rest
      rest_suffix := s.rest_suffix.trans hrest
      found_of_error := fun he => by
        rw [Parse.foundIn_append]
        exact List.append_ne_nil_of_right_ne_nil _ (s.found_of_error he) }
  | ⟨.error e, events, rest, hrest, hfound⟩ => ⟨.error e, events, rest, hrest, fun _ => hfound rfl⟩

/-- Changes what was read. -/
def map (f : α → β) (r : Reply α given) : Reply β given where
  result := r.result.map f
  events := r.events
  rest := r.rest
  rest_suffix := r.rest_suffix
  found_of_error h := by
    rcases hresult : r.result with e | a
    · exact r.found_of_error hresult
    · rw [hresult] at h
      cases h

/-- Goes on without the part if an error has ended it. -/
def recover (r : Reply α given) : Reply (Option α) given :=
  ⟨.ok r.result.toOption, r.events, r.rest, r.rest_suffix, nofun⟩

/-- The same reply, of a statement that is begun before the tokens `here`. -/
def begin (here : List Token) (r : Reply α given) : Reply α given :=
  ⟨r.result, .begun here :: r.events, r.rest, r.rest_suffix, r.found_of_error⟩

section

variable {r : Reply α given} (next : α → (ts : List Token) → ts <:+ given → Reply β ts)

/-- After an error nothing goes on. -/
theorem andThen_of_error {e : SyntaxError} (h : r.result = .error e) :
    (r.andThen next).events = r.events ∧ (r.andThen next).result = .error e ∧
      (r.andThen next).rest = r.rest := by
  rcases r with ⟨_, events, rest, hrest, hfound⟩
  obtain rfl : _ = Except.error e := h
  exact ⟨rfl, rfl, rfl⟩

/-- What has been read goes on from the tokens left over, and its events come later. -/
theorem andThen_of_ok {a : α} (h : r.result = .ok a) :
    let s := next a r.rest r.rest_suffix
    (r.andThen next).events = r.events ++ s.events ∧ (r.andThen next).result = s.result ∧
      (r.andThen next).rest = s.rest := by
  rcases r with ⟨_, events, rest, hrest, hfound⟩
  obtain rfl : _ = Except.ok a := h
  exact ⟨rfl, rfl, rfl⟩

end

/-- What is made of the part that is read is made of some part. -/
theorem result_map_eq_ok {f : α → β} {r : Reply α given} {b : β}
    (h : (r.map f).result = .ok b) : ∃ a, r.result = .ok a ∧ f a = b := by
  rcases hresult : r.result with e | a
  · simp [map, hresult, Except.map] at h
  · simp only [map, hresult, Except.map, Except.ok.injEq] at h
    exact ⟨a, rfl, h⟩

/-- Whatever is made of a part, the errors stay. -/
theorem result_map_eq_error {f : α → β} {r : Reply α given} {e : SyntaxError}
    (h : (r.map f).result = .error e) : r.result = .error e := by
  rcases hresult : r.result with e' | a
  · simpa [map, hresult, Except.map] using h
  · simp [map, hresult, Except.map] at h

/-- After a part that has been given up, what goes on does so without it. -/
theorem recover_andThen (r : Reply α given)
    (next : Option α → (ts : List Token) → ts <:+ given → Reply β ts) :
    let s := next r.result.toOption r.rest r.rest_suffix
    (r.recover.andThen next).events = r.events ++ s.events ∧
      (r.recover.andThen next).result = s.result ∧ (r.recover.andThen next).rest = s.rest :=
  ⟨rfl, rfl, rfl⟩

end Reply

end Monkey
