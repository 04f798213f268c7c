/-!
# Roles of grammar constructs

How the grammar's words for constructs are treated when a concrete syntax tree
is simplified. Words that are not listed play no special role.
-/

namespace RubySmells

/-- The part a construct plays in the simplified tree. -/
inductive Role
  /-- Left out. -/
  | comment
  /-- Replaced by its own parts. -/
  | wrapper
  /-- The parameters of a method or block. -/
  | parameterList
  /-- A bare word: a local variable or a call. -/
  | identifier
  | classDefinition
  | moduleDefinition
  | methodDefinition
  /-- A body that sees the locals around it. -/
  | block
  | conditional
  | call
  | assignment
  | loop
  /-- The variable that a rescue clause binds. -/
  | exceptionVariable
  /-- Statements in parentheses. -/
  | group
  /-- A construct with locals of its own and no other role. -/
  | gate
  | plain
  deriving DecidableEq, Repr

namespace Role

/-- The role of a construct by the grammar's word for it. -/
def ofType (type : String) : Role :=
  match type with
  | "comment" => .comment
  | "body_statement" => .wrapper
  | "then" => .wrapper
  | "else" => .wrapper
  | "do" => .wrapper
  | "argument_list" => .wrapper
  | "block_body" => .wrapper
  | "method_parameters" => .parameterList
  | "block_parameters" => .parameterList
  | "lambda_parameters" => .parameterList
  | "identifier" => .identifier
  | "class" => .classDefinition
  | "module" => .moduleDefinition
  | "method" => .methodDefinition
  | "singleton_method" => .methodDefinition
  | "block" => .block
  | "do_block" => .block
  | "lambda" => .block
  | "if" => .conditional
  | "unless" => .conditional
  | "elsif" => .conditional
  | "if_modifier" => .conditional
  | "unless_modifier" => .conditional
  | "conditional" => .conditional
  | "call" => .call
  | "assignment" => .assignment
  | "operator_assignment" => .assignment
  | "for" => .loop
  | "exception_variable" => .exceptionVariable
  | "parenthesized_statements" => .group
  | "program" => .gate
  | "singleton_class" => .gate
  | _ => .plain

end Role

end RubySmells
