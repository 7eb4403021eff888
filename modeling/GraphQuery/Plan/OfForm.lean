import GraphQuery.Plan.Argument
import GraphQuery.Form.OfTokens
import GraphQuery.Json.OfTokens
/-!
# The plan of a form

`Plan.ofForm` checks the operators of a form and reads their arguments.  Arguments are looked at in
the order in which an operator names them, so of two faults the earlier one is reported; a plan
that an operator does not ask for is never looked at.
-/

namespace GraphQuery

open Argument (Read inForm bad)

namespace Predicate

/-- An operand for a field: of the declared type, or as it is written for an undeclared one. -/
def operand (schema : Schema) (field : String) (f : Form) : Read Value :=
  match schema.fieldType? field, f with
  | _, .list _ => bad "filter" (.notScalar field)
  | _, .quote _ => bad "filter" (.notScalar field)
  | none, f => .ok f.toValue
  | some .int, .int i => .ok (.int i)
  | some .float, .int i => .ok (.float (Double.ofInt i.toInt))
  | some .float, .float d => .ok (.float d)
  | some .string, .symbol s => .ok (.string s)
  | some .string, .string s => .ok (.string s)
  | some .bool, .symbol s =>
    if s = "true" then .ok (.bool true)
    else if s = "false" then .ok (.bool false)
    else .error (.operandType field .bool f.kind)
  | some declared, f => .error (.operandType field declared f.kind)

def operands (schema : Schema) : List String → List Form → Read (List Value)
  | field :: fields, f :: fs =>
    (operand schema field f).bind fun v => (operands schema fields fs).map (v :: ·)
  | _, _ => .ok []

def comparison (schema : Schema) (op : Comparison) : Form → Form → Read Predicate
  | .list fields, .list values =>
    if fields.length ≠ values.length ∨ fields = [] then bad op.symbol .unequalTuples
    else do
      let names ← Argument.all (Argument.name op.symbol) fields
      return .compare op names (← operands schema names values)
  | .list _, _ => bad op.symbol .noOperandList
  | target, value => do
    let field ← Argument.name op.symbol target
    return .compare op [field] [← operand schema field value]

/-- A text to look for in a field that is not declared as something other than a string. -/
def textOperand (schema : Schema) (op field : String) (f : Form) : Read String :=
  match schema.fieldType? field with
  | some .string => Argument.text op f
  | none => Argument.text op f
  | some declared => .error (.operandType field .string declared.name)

def condition (schema : Schema) (op field : String) (f : Form) : Read Predicate :=
  if op = "range" then
    match f with
    | .list [hi, lo] => do
      let hi ← operand schema field hi
      return .range field hi (← operand schema field lo)
    | _ => bad op .noBounds
  else if op = "inset" then
    match f with
    | .list members => return .inSet field (← Argument.all (operand schema field) members)
    | member => return .inSet field [← operand schema field member]
  else if op = "contains" then
    return .contains field (← textOperand schema op field f)
  else if op = "prefix" then
    return .beginsWith field (← textOperand schema op field f)
  else .error (.unknownPredicate op)

def read (schema : Schema) : Form → Read Predicate
  | .list (.symbol op :: args) =>
    match args with
    | [target, value] =>
      match Comparison.ofSymbol? op with
      | some c => comparison schema c target value
      | none => do
        let field ← Argument.name op target
        condition schema op field value
    | _ => .error (.arity op "2" args.length)
  | _ => bad "filter" .notPredicate

def ofForm (schema : Schema) (f : Form) : Except PlanError Predicate := inForm f (read schema f)

end Predicate

namespace Plan

structure Operand where
  form : Form
  plan : Except PlanError Plan

def Operand.plans : List Operand → Except PlanError (List Plan)
  | [] => .ok []
  | o :: rest => o.plan.bind fun p => (plans rest).map (p :: ·)

/-- The values that quoted forms denote: the elements of a list, or one value. -/
def literalValues : Form → List Value
  | .list fs => fs.map Form.toValue
  | f => [f.toValue]

def jsonArgument (op : String) (f : Form) : Read Json :=
  match f.name? with
  | none => bad op .notJsonText
  | some text =>
    match Json.parse? text with
    | some j => .ok j
    | none => bad op .badJson

def ofOperator (schema : Schema) (spec : Signature) (node : Form) (operands : List Operand) :
    Except PlanError Plan :=
  let op := spec.name
  match spec.operator, operands with
  | .limit, [n, input] => do
    return .transform (.limit (← inForm node (Argument.count op n.form)) 0) (← input.plan)
  | .limit, [n, skipped, input] => do
    let count ← inForm node (Argument.count op n.form)
    let offset ← inForm node (Argument.count op skipped.form)
    return .transform (.limit count offset) (← input.plan)
  | .sample, [n, input] => do
    return .transform (.sample (← inForm node (Argument.count op n.form))) (← input.plan)
  | .reverse, [input] => input.plan.map (.transform .reverse)
  | .count, [input] => input.plan.map (.transform .count)
  | .filter, [condition, input] => do
    return .transform (.filter (← Predicate.ofForm schema condition.form)) (← input.plan)
  | .project, [fields, input] => do
    return .transform (.project (← inForm node (Argument.fields op fields.form))) (← input.plan)
  | .orderBy, [keys, input] => do
    return .transform (.orderBy (← inForm node (Argument.sortKeys op keys.form))) (← input.plan)
  | .groupBy, [fields, input] => do
    return .transform (.groupBy (← inForm node (Argument.fields op fields.form))) (← input.plan)
  | .bind, [bindings, input] => do
    return .transform (.bind (← inForm node (Argument.bindings op bindings.form))) (← input.plan)
  | .aggregate, [input] => input.plan.map .aggregate
  | .exist, [input] => input.plan.map .exist
  | .combine how, operands => (Operand.plans operands).map (.combine how)
  | .difference, [left, right] => do return .difference (← left.plan) (← right.plan)
  | .nest, [key, input] => do
    return .nest (← inForm node (Argument.name op key.form)) (← input.plan)
  | .target, [names, input] => do
    return .target (← inForm node (Argument.fields op names.form)) (← input.plan)
  | .apply, [subquery, input] => do return .apply (← subquery.plan) (← input.plan)
  | .assoc, [type] => return .assocHere (← inForm node (Argument.name op type.form))
  | .assoc, [type, input] => do
    return .assoc (← inForm node (Argument.name op type.form)) (← input.plan)
  | .obj, [⟨.list _, plan⟩] => plan.map .obj
  | .obj, operands =>
    match operands.find? fun o => !o.form.isAtom with
    | some o => inForm node (bad op (.notIdentifiers o.form))
    | none => return .obj (.literal (operands.map fun o => o.form.toValue))
  | .literal, operands => return .literal (operands.map fun o => o.form.toValue)
  | .json, [text] => (inForm node (jsonArgument op text.form)).map .json
  | _, operands => .error ⟨.arity op spec.arity operands.length, node⟩

mutual

/--
The plan of a form in the place of a query.  A quoted form is a literal, and so is a list whose
head names no operator.
-/
def ofForm (schema : Schema) : Form → Except PlanError Plan
  | .quote f => .ok (.literal (literalValues f))
  | .atom a => inForm (.atom a) (bad "query" (.notQuery (.atom a)))
  | .list [] => .ok (.literal [])
  | .list (f :: args) =>
    match Signature.ofForm? (.list (f :: args)) with
    | none => .ok (.literal ((f :: args).map Form.toValue))
    | some spec =>
      if spec.accepts args.length then
        ofOperator schema spec (.list (f :: args)) (operandsOf schema args)
      else .error ⟨.arity spec.name spec.arity args.length, .list (f :: args)⟩
termination_by structural f => f

def operandsOf (schema : Schema) : List Form → List Operand
  | [] => []
  | f :: rest => ⟨f, ofForm schema f⟩ :: operandsOf schema rest
termination_by structural fs => fs

end

end Plan

end GraphQuery
