import Reckoner.Proofs.Tracing
import Reckoner.Proofs.Verdicts

/-! The log of an evaluation is truthful. Each record of an attempt, also of one in an alternative that was given up
    later, says what the labelled rule derives from its place on: the longest derivable beginning of what is left
    there, or that no beginning is derivable. The last of these records is that of the expression at the start of
    the text, and the one report that follows says the same. -/

namespace Reckoner.Arithmetic
open Reckoner.Parser

variable {ι κ : Type} {τ : ι → Type} {σ : κ → Type} {text : List Char} {depth : Nat} {env : Environment τ}
  {env' : Environment σ}

/-! ### Attempts at rules -/

/-- The name that the label of a rule gives to it. -/
def Rule.name? : Rule → Option String
  | .digit => some "digit"
  | .number => some "number"
  | .factor => some "factor"
  | .expr => some "expression"
  | .spaces | .termTail | .term | .exprTail => none

/-- What the attempt says is true of the text: from `start` to `stop` is the longest beginning of what is left at
    `start` that is derivable from the rule, or no beginning is derivable. -/
def Holds (text : List Char) : Attempt → Prop
  | .matched name start stop => start < stop ∧ stop ≤ Text.byteLength text ∧
    ∃ rule : Rule, rule.name? = some name ∧ ∃ before x rest, text = before ++ x ++ rest ∧
      Text.byteLength before = start ∧ Text.byteLength (before ++ x) = stop ∧ Longest rule.language x (x ++ rest)
  | .failed name start =>
    ∃ rule : Rule, rule.name? = some name ∧ ∃ before rest, text = before ++ rest ∧
      Text.byteLength before = start ∧ ∀ x, Derives rule x → ¬ x <+: rest

theorem ne_nil_of_derives {rule : Rule} {name : String} {x : List Char} (hname : rule.name? = some name)
    (hx : Derives rule x) : x ≠ [] := by
  rintro rfl
  cases rule with
  | digit => exact nil_notMem_digit hx
  | number =>
    obtain ⟨n, hn⟩ := hx
    exact n.nonempty hn
  | factor => exact nil_notMem_factor hx
  | expr => exact nil_notMem_expr hx
  | spaces | termTail | term | exprTail => cases hname

section
variable {rule : Rule} {name : String}

theorem holds_matched {before x u : List Char} {stop : Nat} (hname : rule.name? = some name)
    (htext : text = before ++ (x ++ u)) (hx : Longest rule.language x (x ++ u))
    (hstop : stop = Text.byteLength (before ++ x)) :
    Holds text (.matched name (Text.byteLength before) stop) := by
  subst hstop
  have hlength : 0 < x.length := List.length_pos_iff.mpr (ne_nil_of_derives hname hx.mem)
  have hsize := Text.length_le_byteLength x
  refine ⟨?_, ?_, rule, hname, before, x, u, by rw [htext, List.append_assoc], rfl, rfl, hx⟩
  · rw [Text.byteLength_append]
    omega
  · rw [htext, ← List.append_assoc, Text.byteLength_append (before ++ x)]
    exact Nat.le_add_right _ _

/-- A label around a parser that then answers as the rule does. -/
theorem records_rule (hdepth : Text.byteLength text < depth) (rule : Rule) {p : Parser σ rule.Value}
    (hname : rule.name? = some name)
    (hexec : ∀ s, exec text depth (p.label name) env' s = exec text depth (rule.parser : Parser τ rule.Value) env s)
    (s : State) (w : List Char) (hs : s.rest? text = some w) :
    (exec text depth p env' s).Records (Holds text) name s.offset := by
  obtain ⟨before, htext, hbefore⟩ := Text.eq_append_of_dropBytes? hs
  by_cases h : ∃ x, Derives rule x ∧ x <+: w
  · obtain ⟨x, hx, hstart⟩ := h
    obtain ⟨y, u, value, rfl, hy, hreads⟩ : ∃ y u value, w = y ++ u ∧ Longest rule.language y w ∧
        Reads text depth env rule.parser w (some (value, u)) := reads_of_derives hdepth rule hx hstart
    obtain ⟨t, ht, hrest⟩ := (hreads.congr hexec).of_label s hs
    rw [ht, ← hbefore]
    refine holds_matched hname htext hy ?_
    have hleft := offset_add_byteLength hrest
    rw [htext, ← List.append_assoc, Text.byteLength_append (before ++ y)] at hleft
    omega
  · have hnone : ∀ x, Derives rule x → ¬ x <+: w := fun x hx hstart => h ⟨x, hx, hstart⟩
    have hreads : Reads text depth env (rule.parser : Parser τ rule.Value) w none :=
      reads_of_not_derives hdepth rule hnone
    obtain ⟨t, ht⟩ := (hreads.congr hexec).of_label s hs
    rw [ht]
    exact ⟨rule, hname, before, w, htext, hbefore, hnone⟩

end

/-! ### Labels of the rules -/

section
variable {number : Parser σ Float} {space : Parser σ String} {inside operand : Parser σ Float} {P : Attempt → Prop}

theorem tells_spaces : Tells P text depth (spaces : Parser τ String) env :=
  Tells.many (p := Parser.literal " ") trivial

theorem tells_tail (operators : List Operator) (hspace : Tells P text depth space env')
    (hoperand : Tells P text depth operand env') : Tells P text depth (tail operators space operand) env' := by
  refine Tells.any fun p hp => ?_
  rcases List.mem_append.mp hp with hp | hp
  · obtain ⟨operator, -, rfl⟩ := List.mem_map.mp hp
    exact ⟨⟨⟨⟨hspace, fun _ => trivial⟩, fun _ => hspace⟩, fun _ => hoperand⟩, fun _ => trivial⟩
  · obtain rfl := List.mem_singleton.mp hp
    trivial

end

variable (hdepth : Text.byteLength text < depth)
include hdepth

theorem tells_digit : Tells (Holds text) text depth (digit : Parser τ String) env := by
  refine ⟨Tells.any fun p hp => ?_, records_rule hdepth .digit rfl fun _ => rfl⟩
  obtain ⟨digit, -, rfl⟩ := List.mem_map.mp hp
  trivial

theorem tells_number : Tells (Holds text) text depth (number : Parser τ Float) env := by
  refine ⟨⟨(tells_digit hdepth).many1, fun digits => ?_⟩, records_rule hdepth .number rfl fun _ => rfl⟩
  cases hread : Decimal.read? digits <;> simp only [hread] <;> trivial

section
variable {number : Parser σ Float} {space : Parser σ String} {inside : Parser σ Float}

theorem tells_factorOver (hnumber : Tells (Holds text) text depth number env')
    (hspace : Tells (Holds text) text depth space env') (hinside : Tells (Holds text) text depth inside env')
    (hfactor : ∀ s, exec text depth (factorOver inside number space) env' s = exec text depth rules.factor env s) :
    Tells (Holds text) text depth (factorOver inside number space) env' := by
  have hends : ∀ s, exec text depth (factorOver inside number space) env' s ≠ .halted .tooDeep := by
    intro s
    rw [hfactor]
    exact exec_rule_ne_tooDeep hdepth .factor s
  refine ⟨Tells.any fun p hp => ?_,
    records_rule hdepth .factor rfl fun s => (exec_recursive_eq (hends s)).symm.trans (hfactor s)⟩
  simp only [List.mem_cons, List.not_mem_nil, or_false] at hp
  rcases hp with rfl | rfl | rfl
  · exact ⟨⟨⟨⟨trivial, fun _ => hspace⟩, fun _ => hinside⟩, fun _ => hspace⟩, fun _ => trivial⟩
  · exact ⟨trivial, fun _ => trivial⟩
  · exact hnumber

/-- The rules over given words and with a given parser in parentheses, when they answer as the rules do. -/
theorem tells_over (hnumber : Tells (Holds text) text depth number env')
    (hspace : Tells (Holds text) text depth space env') (hinside : Tells (Holds text) text depth inside env')
    (hfactor : ∀ s, exec text depth (factorOver inside number space) env' s = exec text depth rules.factor env s)
    (hexpr : ∀ s, exec text depth (Rules.over factorOperators termOperators number space inside).expr env' s =
      exec text depth expr env s) :
    Tells (Holds text) text depth (Rules.over factorOperators termOperators number space inside).expr env' := by
  have hone := tells_factorOver hdepth hnumber hspace hinside hfactor
  have hterm : Tells (Holds text) text depth (termOver (factorOver inside number space)
      (tail factorOperators space (factorOver inside number space))) env' :=
    ⟨hone, fun _ => tells_tail _ hspace hone⟩
  exact ⟨⟨hterm, fun _ => tells_tail _ hspace hterm⟩, records_rule hdepth .expr rfl hexpr⟩

end

/-- What stands in parentheses is the same rules once more, where parentheses enclose what the handle stands for. -/
theorem tells_enclosed : Tells (Holds text) text depth
    (.recursive (Rules.over factorOperators termOperators number.weaken spaces.weaken .self).expr : Parser τ Float)
    env := by
  have hexpr : ∀ s, exec text depth
      (Rules.over factorOperators termOperators number.weaken spaces.weaken .self : Rules (Extended Float τ)).expr
      (env.extend (exec text depth (Assembly.expression.tied number spaces) env)) s = exec text depth expr env s :=
    fun _ => rfl
  exact tells_over hdepth (tells_number hdepth) tells_spaces trivial (fun _ => rfl) hexpr

theorem tells_expr : Tells (Holds text) text depth (expr : Parser τ Float) env :=
  tells_over hdepth (tells_number hdepth) tells_spaces (tells_enclosed hdepth) (fun _ => rfl) fun _ => rfl

/-! ### The log -/

omit hdepth

variable {input : String}

theorem holds_of_mem_trace {attempt : Attempt} (h : attempt ∈ (parseExpression input).trace) :
    Holds input.toList attempt :=
  (tells_expr (byteLength_lt_depth _ _)).of_mem_trace (fun i => i.elim) h

/-- The last attempt is the one at the whole expression. -/
theorem trace_of_matched {value : Float} {remaining : String}
    (h : (parseExpression input).result = .matched value remaining) :
    ∃ earlier consumed, input = consumed ++ remaining ∧
      (parseExpression input).trace = earlier ++ [.matched "expression" 0 consumed.utf8ByteSize] := by
  obtain ⟨t, ht, hrest⟩ := reply_of_matched h
  obtain ⟨earlier, hlast⟩ := trace_of_label_matched ht
  obtain ⟨consumed, hinput, hoffset⟩ := exists_consumed hrest
  have htrace : (parseExpression input).trace = t.trace.reverse := by
    rw [parseExpression, run, runWith, ht, trace_outcome_matched]
  exact ⟨earlier.reverse, consumed, hinput, by rw [htrace, hlast, List.reverse_cons, hoffset]⟩

theorem trace_of_noMatch (h : (parseExpression input).result = .noMatch) :
    ∃ earlier, (parseExpression input).trace = earlier ++ [.failed "expression" 0] := by
  obtain ⟨t, ht⟩ := reply_of_noMatch h
  obtain ⟨earlier, hlast⟩ := trace_of_label_noMatch ht
  have htrace : (parseExpression input).trace = t.trace.reverse := by
    rw [parseExpression, run, runWith, ht, trace_outcome_noMatch]
  exact ⟨earlier.reverse, by rw [htrace, hlast, List.reverse_cons]⟩

/-- What is reported after the last attempt: the value and the rest that evaluation yields, unless it refuses the
    rest, or the place where it got stuck. -/
inductive Reported (input : String) : Attempt → LogRecord → Prop
  | evaluated {consumed remaining : String} {value : Float} (hinput : input = consumed ++ remaining)
      (hleading : evaluate input .leading = .ok ⟨value, remaining⟩)
      (hwhole : evaluate input .whole = if remaining = "" then .ok ⟨value, remaining⟩
        else .error (.trailingInput consumed.utf8ByteSize remaining)) :
      Reported input (.matched "expression" 0 consumed.utf8ByteSize) (.evaluated input value remaining)
  | stuck {offset : Nat} {expected : List String}
      (heval : ∀ consumption, evaluate input consumption = .error (.noMatch offset expected)) :
      Reported input (.failed "expression" 0) (.stuck input offset)

/-- The records of an evaluation are those of attempts at rules and one report after them. What the attempts say is
    true of the input, also where an alternative was given up later; the last one is at the whole expression. The
    report is what evaluation answers, whether text is left over or not. -/
theorem evaluateLogged_truthful (input : String) (consumption : Consumption) :
    ∃ earlier last report, (evaluateLogged input consumption).2 = (earlier ++ [last]).map .attempt ++ [report] ∧
      (∀ attempt ∈ earlier ++ [last], Holds input.toList attempt) ∧ Reported input last report := by
  have hholds : ∀ attempt ∈ (parseExpression input).trace, Holds input.toList attempt := fun _ => holds_of_mem_trace
  by_cases h : ∃ x, Derives .expr x ∧ x <+: input.toList
  · obtain ⟨x, hx, hstart⟩ := h
    obtain ⟨_, remaining, value, -, -, hresult⟩ := parseExpression_of_derives hx hstart
    obtain ⟨earlier, consumed, hinput, htrace⟩ := trace_of_matched hresult
    have hlog (consumption : Consumption) := evaluateLogged_of_matched hresult consumption
    refine ⟨earlier, _, .evaluated input value remaining, ?_, htrace ▸ hholds, .evaluated hinput ?_ ?_⟩
    · rw [hlog, parseRecords, htrace]
    · simp [evaluate, hlog]
    · have hoffset : input.utf8ByteSize - remaining.utf8ByteSize = consumed.utf8ByteSize := by
        rw [hinput, String.utf8ByteSize_append, Nat.add_sub_cancel]
      by_cases hempty : remaining = "" <;> simp [evaluate, hlog, hempty, hoffset]
  · have hresult := parseExpression_of_not_derives fun x hx hstart => h ⟨x, hx, hstart⟩
    obtain ⟨earlier, htrace⟩ := trace_of_noMatch hresult
    obtain ⟨offset, expected, hlog⟩ := evaluateLogged_of_noMatch hresult
    have heval : ∀ consumption, evaluate input consumption = .error (.noMatch offset expected) := by
      intro consumption
      rw [evaluate, hlog]
    refine ⟨earlier, _, .stuck input offset, ?_, htrace ▸ hholds, .stuck heval⟩
    rw [hlog, parseRecords, htrace]

end Reckoner.Arithmetic
