import Reckoner.Proofs.Definitions
import Reckoner.Proofs.Outcome

/-!
# Assignments as transactions

An assignment either leaves the table alone or puts one definition into it, under the key that its
text names.  It does the former if it fails and if it is a preview.
-/

namespace Reckoner

/-- The key to which the text of an assignment assigns. -/
def Key.ofText (input : List Char) : Key :=
  let target := Text.before '=' (input.filter (· != '\n'))
  let name := String.ofList (Text.trim (Text.before '(' target))
  if '(' ∈ target then .function name else .value name

/-- A variable has the value of the tokens, and a function has them as its body. -/
def Definition.Gives (table : Table) (tokens : List Token) : Definition → Prop
  | .value _ result => table.evaluate tokens = .ok result
  | .function _ entry => ∃ parameters, entry.routine = .formula ⟨parameters, tokens⟩

/-! ## What an assignment does -/

namespace Statement

variable {statement : Statement} {tokens : List Token} {table : Table} {input : List Char}

/-- The key to which a statement assigns. -/
def key (statement : Statement) : Key :=
  if '(' ∈ statement.target then .function statement.name else .value statement.name

/-- What a finished statement defines, given the tokens of its expression. -/
def definition (statement : Statement) (table : Table) (tokens : List Token) :
    Except Fault Definition := do
  match ← parameters? statement.target with
  | some parameters =>
      return .function statement.name
        ⟨String.ofList statement.line, .formula ⟨parameters, tokens⟩⟩
  | none => return .value statement.name (← table.evaluate tokens)

/-- The newline behind a line finishes it and is not part of it. -/
theorem filter_newline {line : List Char} (oneLine : '\n' ∉ line) :
    (line ++ ['\n']).filter (· != '\n') = line := by
  have kept : line.filter (· != '\n') = line := by
    refine List.filter_eq_self.mpr fun c member => ?_
    simpa using fun same : c = '\n' => oneLine (same ▸ member)
  rw [List.filter_append, kept]
  simp

theorem read_eq_ok_iff :
    read input = .ok statement ↔
      statement.line = Text.trim (input.filter (· != '\n')) ∧
        Text.cutAt? '=' statement.line = some (statement.target, statement.expression) ∧
        targetName statement.target ≠ [] := by
  obtain ⟨line, target, expression⟩ := statement
  rw [read]
  constructor
  · intro found
    split at found
    · cases found
    · rename_i cut
      split_ifs at found with unnamed
      cases found
      exact ⟨rfl, cut, unnamed⟩
  · rintro ⟨rfl, cut, named⟩
    simp only [cut, if_neg named]

/-- The statement in a text and the tokens of its expression. -/
def prepare (input : List Char) : Except Fault (Statement × List Token) := do
  let statement ← read input
  return (statement, ← Lexer.tokenize statement.expression)

theorem prepare_eq_ok :
    prepare input = .ok (statement, tokens) ↔
      read input = .ok statement ∧ Lexer.tokenize statement.expression = .ok tokens := by
  simp only [prepare, Outcome.bind_eq_ok, Outcome.pure_eq_ok, Except.ok.injEq, Prod.mk.injEq]
  constructor
  · rintro ⟨_, found, _, tokenized, rfl, rfl⟩
    exact ⟨found, tokenized⟩
  · rintro ⟨found, tokenized⟩
    exact ⟨_, found, _, tokenized, rfl, rfl⟩

theorem mem_of_parameters? {target : List Char} {parameters? : Option (List String)}
    (found : Statement.parameters? target = .ok parameters?) :
    '(' ∈ target ↔ parameters? ≠ none := by
  rw [Statement.parameters?] at found
  split at found
  · rename_i uncut
    cases found
    simpa using Text.cutAt?_eq_none_iff.mp uncut
  · rename_i front inner cut
    split at found
    · cases found
    · cases found
      obtain ⟨rfl, -⟩ := Text.cutAt?_eq_some_iff.mp cut
      simp

theorem definition_cases {defined : Definition}
    (defines : statement.definition table tokens = .ok defined) :
    (∃ value, parameters? statement.target = .ok none ∧ table.evaluate tokens = .ok value ∧
        defined = .value statement.name value) ∨
      ∃ parameters, parameters? statement.target = .ok (some parameters) ∧
        defined = .function statement.name
          ⟨String.ofList statement.line, .formula ⟨parameters, tokens⟩⟩ := by
  obtain ⟨found?, found, given⟩ := Outcome.bind_eq_ok.mp defines
  cases found? with
  | some parameters =>
      cases given
      exact .inr ⟨parameters, found, rfl⟩
  | none =>
      obtain ⟨value, evaluated, stored⟩ := Outcome.bind_eq_ok.mp given
      cases stored
      exact .inl ⟨value, found, evaluated, rfl⟩

theorem key_of_definition {defined : Definition}
    (defines : statement.definition table tokens = .ok defined) :
    defined.key = statement.key ∧ defined.Gives table tokens := by
  rcases definition_cases defines with ⟨value, found, evaluated, rfl⟩ | ⟨parameters, found, rfl⟩
  · rw [key, if_neg fun member => (mem_of_parameters? found).mp member rfl]
    exact ⟨rfl, evaluated⟩
  · rw [key, if_pos ((mem_of_parameters? found).mpr (by simp))]
    exact ⟨rfl, parameters, rfl⟩

/-- Target and expression of a statement are the parts of its text before and behind the first `=`,
without the newlines in them and the blank characters around them. -/
theorem exists_parts (found : read input = .ok statement) :
    ∃ target expression front back, Text.cutAt? '=' input = some (target, expression) ∧
      target.filter (· != '\n') = front ++ statement.target ∧
      expression.filter (· != '\n') = statement.expression ++ back ∧
      (∀ c ∈ front, Text.isBlank c = true) ∧ ∀ c ∈ back, Text.isBlank c = true := by
  obtain ⟨line, cut, -⟩ := read_eq_ok_iff.mp found
  obtain ⟨parts, absent⟩ := Text.cutAt?_eq_some_iff.mp cut
  obtain ⟨front, back, around, blankFront, blankBack⟩ := Text.exists_trim (input.filter (· != '\n'))
  have unmarked : '=' ∉ front ++ statement.target := by
    rw [List.mem_append, not_or]
    refine ⟨fun member => ?_, absent⟩
    cases blankFront '=' member
  have whole : input.filter (· != '\n') =
      (front ++ statement.target) ++ '=' :: (statement.expression ++ back) := by
    rw [around, ← line, parts]
    simp
  have marked : '=' ∈ input.filter (· != '\n') := by
    rw [whole]
    simp
  obtain ⟨target, expression, rfl, before⟩ :=
    List.eq_append_cons_of_mem (List.mem_filter.mp marked).1
  have shorter : '=' ∉ target.filter (· != '\n') :=
    fun member => before (List.mem_filter.mp member).1
  have same := Text.cutAt?_eq_some_iff.mpr ⟨whole, unmarked⟩
  rw [List.filter_append, List.filter_cons_of_pos (by decide),
    Text.cutAt?_eq_some_iff.mpr ⟨rfl, shorter⟩, Option.some.injEq, Prod.mk.injEq] at same
  exact ⟨target, expression, front, back, Text.cutAt?_eq_some_iff.mpr ⟨rfl, before⟩, same.1, same.2,
    blankFront, blankBack⟩

/-- The key of a statement can be read off its text: neither the blank characters around the line
nor the expression matter. -/
theorem key_of_read (found : read input = .ok statement) : statement.key = Key.ofText input := by
  obtain ⟨target, expression, front, back, cut, targets, -, blank, -⟩ := exists_parts found
  obtain ⟨rfl, unmarked⟩ := Text.cutAt?_eq_some_iff.mp cut
  have before : Text.before '=' ((target ++ '=' :: expression).filter (· != '\n')) =
      front ++ statement.target := by
    rw [List.filter_append, List.filter_cons_of_pos (by decide), Text.before_append_cons, targets]
    exact fun member => unmarked (List.mem_filter.mp member).1
  have notBlank {c : Char} (visible : Text.isBlank c = false) : c ∉ front := by
    intro member
    rw [blank c member] at visible
    cases visible
  have names : Text.trim (Text.before '(' (front ++ statement.target)) =
      targetName statement.target := by
    rw [Text.before_append (notBlank (by decide)), Text.trim_append blank, targetName]
  have brackets : '(' ∈ front ++ statement.target ↔ '(' ∈ statement.target := by
    simp [notBlank (show Text.isBlank '(' = false by decide)]
  simp only [key, name, Key.ofText, before, names, brackets]

theorem perform_commit (statement : Statement) (tokens : List Token) (table : Table) :
    (statement.commit tokens).perform table =
      match statement.definition table tokens with
      | .ok defined => (.ok (), table.define defined)
      | .error fault => (.error fault, table) := by
  simp only [commit, definition, Update.perform_bind, Update.perform_liftM]
  cases parameters? statement.target with
  | error fault => rfl
  | ok parameters =>
      cases parameters with
      | some parameters => rfl
      | none =>
          simp only [Update.perform_bind, Update.perform_get, Update.perform_liftM]
          cases evaluated : table.evaluate tokens with
          | error fault => rfl
          | ok value => rfl

end Statement

theorem Statement.mem_of_mem_targetName {target : List Char} {c : Char}
    (member : c ∈ targetName target) : c ∈ target :=
  (List.takeWhile_sublist _).mem (Text.mem_of_mem_trim member)

/-- Newlines in a target do not matter unless they are inside its name. -/
theorem Statement.targetName_filter {target : List Char} (oneLine : '\n' ∉ targetName target) :
    targetName (target.filter (· != '\n')) = targetName target := by
  rw [targetName, Text.before_filter (by decide), Text.trim_filter]
  · rfl
  · intro c member
    simpa using fun same : c = '\n' => oneLine (same ▸ member)

theorem Key.ofText_line {line target rest : List Char}
    (cut : Text.cutAt? '=' line = some (target, rest))
    (oneLine : '\n' ∉ Statement.targetName target) :
    Key.ofText (line ++ ['\n']) =
      if '(' ∈ target then .function (String.ofList (Statement.targetName target))
      else .value (String.ofList (Statement.targetName target)) := by
  obtain ⟨rfl, unmarked⟩ := Text.cutAt?_eq_some_iff.mp cut
  have before : Text.before '=' ((target ++ '=' :: rest ++ ['\n']).filter (· != '\n')) =
      target.filter (· != '\n') := by
    rw [Text.before_filter (by decide), List.append_assoc, List.cons_append,
      Text.before_append_cons unmarked]
  have name := Statement.targetName_filter oneLine
  have bracket : '(' ∈ target.filter (· != '\n') ↔ '(' ∈ target := by simp
  rw [Statement.targetName] at name
  simp only [Key.ofText, before, name, bracket]

namespace Table

variable {table : Table} {input : List Char} {tokens : List Token}

/-- The tokens that an assignment returns and the definition that it stores, if it is finished. -/
def plan (table : Table) (input : List Char) : Except Fault (List Token × Option Definition) := do
  let (statement, tokens) ← Statement.prepare input
  if '\n' ∈ input then return (tokens, some (← statement.definition table tokens))
  return (tokens, none)

/-- The table after an assignment with the given plan. -/
def carryOut (table : Table) : Except Fault (List Token × Option Definition) → Table
  | .ok (_, some defined) => table.define defined
  | _ => table

theorem plan_eq_ok {stored? : Option Definition} :
    table.plan input = .ok (tokens, stored?) ↔
      ∃ statement, Statement.prepare input = .ok (statement, tokens) ∧
        if '\n' ∈ input then
          ∃ defined, statement.definition table tokens = .ok defined ∧ stored? = some defined
        else stored? = none := by
  rw [plan]
  cases Statement.prepare input with
  | error fault => simp
  | ok prepared =>
      obtain ⟨statement, expression⟩ := prepared
      simp only [Outcome.ok_bind, Except.ok.injEq, Prod.mk.injEq]
      split_ifs with finished
      · simp only [Outcome.bind_eq_ok, Outcome.pure_eq_ok, Except.ok.injEq, Prod.mk.injEq]
        constructor
        · rintro ⟨defined, defines, rfl, rfl⟩
          exact ⟨statement, ⟨rfl, rfl⟩, defined, defines, rfl⟩
        · rintro ⟨_, ⟨rfl, rfl⟩, defined, defines, rfl⟩
          exact ⟨defined, defines, rfl, rfl⟩
      · simp [eq_comm]

theorem of_plan_some {defined : Definition}
    (planned : table.plan input = .ok (tokens, some defined)) :
    '\n' ∈ input ∧ defined.key = Key.ofText input ∧ defined.Gives table tokens := by
  obtain ⟨statement, prepared, stores⟩ := plan_eq_ok.mp planned
  obtain ⟨found, -⟩ := Statement.prepare_eq_ok.mp prepared
  split_ifs at stores with finished
  obtain ⟨_, defines, same⟩ := stores
  cases same
  obtain ⟨named, gives⟩ := Statement.key_of_definition defines
  exact ⟨finished, named.trans (Statement.key_of_read found), gives⟩

theorem of_plan_none (planned : table.plan input = .ok (tokens, none)) : '\n' ∉ input := by
  obtain ⟨statement, -, stores⟩ := plan_eq_ok.mp planned
  intro finished
  rw [if_pos finished] at stores
  obtain ⟨_, -, impossible⟩ := stores
  cases impossible

theorem plan_preview {stored? : Option Definition} (unfinished : '\n' ∉ input)
    (planned : table.plan (input ++ ['\n']) = .ok (tokens, stored?)) :
    table.plan input = .ok (tokens, none) := by
  have same : Statement.prepare (input ++ ['\n']) = Statement.prepare input := by
    simp [Statement.prepare, Statement.read]
  obtain ⟨statement, prepared, -⟩ := plan_eq_ok.mp planned
  rw [same] at prepared
  refine plan_eq_ok.mpr ⟨statement, prepared, ?_⟩
  rw [if_neg unfinished]

end Table

namespace Update

variable {table : Table} {input : List Char}

/-- Storing is the last step of an assignment, and it cannot fail. -/
theorem perform_assign (input : List Char) (table : Table) :
    (assign input).perform table =
      ((table.plan input).map Prod.fst, table.carryOut (table.plan input)) := by
  rw [assign, perform_bind, perform_liftM, Table.plan, Statement.prepare]
  cases Statement.read input with
  | error fault => rfl
  | ok statement =>
      simp only [perform_bind, perform_liftM, Outcome.ok_bind]
      cases Lexer.tokenize statement.expression with
      | error fault => rfl
      | ok tokens =>
          by_cases finished : '\n' ∈ input
          · simp only [Outcome.ok_bind, Outcome.pure_eq_ok, List.contains_iff_mem, finished,
              ↓reduceIte, perform_bind, Statement.perform_commit, perform_pure]
            cases statement.definition table tokens with
            | error fault => rfl
            | ok defined => rfl
          · simp only [Outcome.ok_bind, Outcome.pure_eq_ok, List.contains_iff_mem, finished,
              ↓reduceIte, perform_pure]
            rfl

theorem perform_assign_eq_ok {tokens : List Token} {after : Table} :
    (assign input).perform table = (.ok tokens, after) ↔
      ∃ stored?, table.plan input = .ok (tokens, stored?) ∧
        table.carryOut (.ok (tokens, stored?)) = after := by
  rw [perform_assign]
  cases table.plan input with
  | error fault => simp [Except.map]
  | ok planned =>
      obtain ⟨expression, stored⟩ := planned
      simp only [Except.map, Prod.mk.injEq, Except.ok.injEq]
      constructor
      · rintro ⟨rfl, rfl⟩
        exact ⟨stored, ⟨rfl, rfl⟩, rfl⟩
      · rintro ⟨_, ⟨rfl, rfl⟩, rfl⟩
        exact ⟨rfl, rfl⟩

/-- An assignment fails, is a preview, or puts one definition into the table. -/
inductive Assigns (table : Table) (input : List Char) :
    Except Fault (List Token) × Table → Prop where
  | failed (fault : Fault) : Assigns table input (.error fault, table)
  | previewed (unfinished : '\n' ∉ input) (tokens : List Token) :
      Assigns table input (.ok tokens, table)
  | committed {tokens : List Token} {defined : Definition} (finished : '\n' ∈ input)
      (named : defined.key = Key.ofText input) (gives : defined.Gives table tokens) :
      Assigns table input (.ok tokens, table.define defined)

theorem assigns_perform (table : Table) (input : List Char) :
    Assigns table input ((assign input).perform table) := by
  rw [perform_assign]
  cases planned : table.plan input with
  | error fault => exact .failed fault
  | ok parts =>
      obtain ⟨tokens, stored⟩ := parts
      cases stored with
      | none => exact .previewed (Table.of_plan_none planned) tokens
      | some defined =>
          obtain ⟨finished, named, gives⟩ := Table.of_plan_some planned
          exact .committed finished named gives

theorem perform_assign_preview {tokens : List Token} {after : Table} (unfinished : '\n' ∉ input)
    (committed : (assign (input ++ ['\n'])).perform table = (.ok tokens, after)) :
    (assign input).perform table = (.ok tokens, table) := by
  obtain ⟨_, planned, -⟩ := perform_assign_eq_ok.mp committed
  exact perform_assign_eq_ok.mpr ⟨none, Table.plan_preview unfinished planned, rfl⟩

end Update

theorem Table.assign_eq_ok {table after : Table} {input : List Char} {tokens : List Token} :
    table.assign input = .ok (tokens, after) ↔
      (Update.assign input).perform table = (.ok tokens, after) := by
  rw [assign]
  split
  · rename_i performed
    simp [performed]
  · rename_i performed
    simp [performed]

/-! ## Runs -/

/-- What can be asked of a table.  A preview is an assignment that is not finished. -/
inductive Request where
  | evaluate (text : List Char)
  | assign (text : List Char)

/-- The steps on a table that answer a request. -/
def Request.update : Request → Update Unit
  | evaluate text => do
      let _ ← (← get).evaluateText text
  | assign text => do
      let _ ← Update.assign text

namespace Table

variable {table : Table} {request : Request} {key : Key}

/-- Only assignments change a table, and as they plan to. -/
theorem snd_perform_update (table : Table) (request : Request) :
    (request.update.perform table).2 =
      match request with
      | .evaluate _ => table
      | .assign text => table.carryOut (table.plan text) := by
  cases request with
  | evaluate text =>
      simp only [Request.update, Update.perform_bind, Update.perform_get, Update.perform_liftM]
      cases table.evaluateText text <;> rfl
  | assign text =>
      simp only [Request.update, Update.perform_bind, Update.perform_assign]
      cases table.plan text <;> rfl

/-- The table after requests in order, whether they fail or not. -/
def after (table : Table) : List Request → Table
  | [] => table
  | request :: requests => (request.update.perform table).2.after requests

/-- A request is a finished assignment to a key and succeeds. -/
def Commits (table : Table) (request : Request) (key : Key) : Prop :=
  ∃ text tokens after, request = .assign text ∧ '\n' ∈ text ∧ Key.ofText text = key ∧
    (Update.assign text).perform table = (.ok tokens, after)

/-- A request changes what is found under a key only if it commits to the key. -/
theorem definition?_step (table : Table) (request : Request) (key : Key) :
    (request.update.perform table).2.definition? key = table.definition? key ∨
      (table.Commits request key ∧
        (request.update.perform table).2.definition? key ≠ none) := by
  cases request with
  | evaluate text =>
      left
      simp only [Request.update, Update.perform_bind, Update.perform_get, Update.perform_liftM]
      cases table.evaluateText text with
      | error fault => rfl
      | ok value => rfl
  | assign text =>
      simp only [Request.update, Update.perform_bind]
      generalize performed : (Update.assign text).perform table = result
      have assigns := Update.assigns_perform table text
      rw [performed] at assigns
      cases assigns with
      | failed fault => exact .inl rfl
      | previewed unfinished tokens => exact .inl rfl
      | @committed tokens defined finished named gives =>
          simp only [Update.perform_pure, definition?_define]
          split_ifs with same
          · exact .inr ⟨⟨text, tokens, _, rfl, finished, named.symm.trans same, performed⟩, by simp⟩
          · exact .inl rfl

theorem definition?_after_ne_none (requests : List Request)
    (present : table.definition? key ≠ none) : (table.after requests).definition? key ≠ none := by
  induction requests generalizing table with
  | nil => exact present
  | cons request requests induction =>
      refine induction ?_
      rcases definition?_step table request key with same | ⟨-, present⟩
      · rw [same]
        exact present
      · exact present

/-- What is found under a key after a run was there before, or the last request that commits to the
key has put it there. -/
theorem definition?_after (table : Table) (requests : List Request) (key : Key) :
    (table.after requests).definition? key = table.definition? key ∨
      ∃ front request back, requests = front ++ request :: back ∧
        (table.after front).Commits request key ∧
        (table.after requests).definition? key =
          (table.after (front ++ [request])).definition? key := by
  induction requests generalizing table with
  | nil => exact .inl rfl
  | cons request requests induction =>
      rcases induction (request.update.perform table).2 with
        same | ⟨front, last, back, rfl, commits, stored⟩
      · rcases definition?_step table request key with unchanged | ⟨commits, -⟩
        · exact .inl (same.trans unchanged)
        · exact .inr ⟨[], request, requests, rfl, commits, same⟩
      · exact .inr ⟨request :: front, last, back, rfl, commits, stored⟩

end Table

namespace Update

/-- An assignment that fails or is not finished leaves the table as it is, and a finished one that
succeeds puts one definition into it, under the key that its text names.  A preview has the tokens
of the assignment that it becomes with a newline.  Over any run no definition disappears, and one
changes only where a request commits to its key. -/
theorem assign_transaction (table : Table) (input : List Char) :
    (∀ fault after, (assign input).perform table = (.error fault, after) → after = table) ∧
      ('\n' ∉ input → ((assign input).perform table).2 = table) ∧
      (∀ tokens after, '\n' ∈ input → (assign input).perform table = (.ok tokens, after) →
        ∃ defined : Definition, defined.key = Key.ofText input ∧ defined.Gives table tokens ∧
          ∀ key, after.definition? key =
            if key = Key.ofText input then some defined else table.definition? key) ∧
      (∀ tokens after, '\n' ∉ input →
        (assign (input ++ ['\n'])).perform table = (.ok tokens, after) →
          (assign input).perform table = (.ok tokens, table)) ∧
      ∀ (requests : List Request) (key : Key),
        (table.definition? key ≠ none → (table.after requests).definition? key ≠ none) ∧
          ((table.after requests).definition? key = table.definition? key ∨
            ∃ front request back, requests = front ++ request :: back ∧
              (table.after front).Commits request key ∧
              (table.after requests).definition? key =
                (table.after (front ++ [request])).definition? key) := by
  have assigns := assigns_perform table input
  refine ⟨?_, ?_, ?_, ?_, ?_⟩
  · intro fault after failed
    rw [failed] at assigns
    cases assigns
    rfl
  · intro unfinished
    generalize (assign input).perform table = result at assigns ⊢
    cases assigns with
    | failed => rfl
    | previewed => rfl
    | committed finished => exact absurd finished unfinished
  · intro tokens after finished committed
    rw [committed] at assigns
    cases assigns with
    | previewed unfinished => exact absurd finished unfinished
    | @committed _ defined _ named gives =>
        refine ⟨defined, named, gives, fun key => ?_⟩
        rw [Table.definition?_define, named]
        simp only [eq_comm]
  · intro tokens after unfinished committed
    exact perform_assign_preview unfinished committed
  · intro requests key
    exact ⟨Table.definition?_after_ne_none requests, Table.definition?_after table requests key⟩

/-- A definition that fails, is previewed, and commits. -/
theorem assign_transaction_identity :
    let failing := "f(x=x\n".toList
    let preview := "f(x)=x".toList
    let after := ((assign (preview ++ ['\n'])).perform .empty).2
    (assign failing).perform .empty = (.error (.unbalancedGrouping .openParameterList), .empty) ∧
      (assign preview).perform .empty = (.ok [.variableName "x"], .empty) ∧
      (assign (preview ++ ['\n'])).perform .empty = (.ok [.variableName "x"], after) ∧
      (∃ defined : Definition, defined.key = .function "f" ∧
        defined.Gives .empty [.variableName "x"] ∧
          ∀ key, after.definition? key = if key = .function "f" then some defined else none) ∧
      ((after.after [.assign failing, .assign preview]).definition? (.function "f") ≠ none) := by
  intro failing preview after
  have fails : ((assign failing).perform .empty).1 =
      .error (.unbalancedGrouping .openParameterList) := by decide +kernel
  have succeeds : ((assign (preview ++ ['\n'])).perform .empty).1 = .ok [.variableName "x"] := by
    decide +kernel
  have committed : (assign (preview ++ ['\n'])).perform .empty = (.ok [.variableName "x"], after) :=
    Prod.ext succeeds rfl
  obtain ⟨defined, named, gives, found⟩ :=
    (assign_transaction .empty (preview ++ ['\n'])).2.2.1 _ _ (by decide) committed
  have key : Key.ofText (preview ++ ['\n']) = .function "f" := by decide
  rw [key] at named found
  have stored : ∀ key, after.definition? key =
      if key = .function "f" then some defined else none := by
    intro key
    rw [found key]
    cases key <;> simp [Table.definition?]
  refine ⟨?_, ?_, committed, ⟨defined, named, gives, stored⟩, ?_⟩
  · exact Prod.ext fails ((assign_transaction .empty failing).1 _ _ (Prod.ext fails rfl))
  · exact (assign_transaction .empty preview).2.2.2.1 _ _ (by decide) committed
  · refine ((assign_transaction after []).2.2.2.2 _ _).1 ?_
    rw [stored, if_pos rfl]
    simp

end Update
end Reckoner
