import LoxMachine.Compile

/-!
# Parse trees

The grammar of the language as trees, the symbols that a tree stands for, and which trees the grammar
admits.

* `Expression`, `Statement`, `Declaration` and `Routine` are the trees. A routine is a function or a
  method.
* `Expression.symbols`, …, `Declaration.symbols` are the tokens that a tree is read from, without their
  lines.
* `Expression.Grammatical` says that the operands of every operator bind tightly enough, and
  `Statement.Grammatical` that every `else` belongs to the nearest `if`. So a source has at most one
  tree.
-/

namespace LoxMachine

/-! ## Symbols -/

/-- A token without its line. The text is kept only where it matters. -/
structure Symbol where
  kind : TokenKind
  text : String := ""
  deriving DecidableEq, Repr

namespace TokenKind

/-- Whether tokens of the kind differ in their texts. -/
def isSpelled : TokenKind → Bool
  | identifier | number | string => true
  | _ => false

/-- The symbol of a kind whose text does not matter. -/
def symbol (kind : TokenKind) : Symbol := { kind }

end TokenKind

def Token.symbol (t : Token) : Symbol := ⟨t.kind, if t.kind.isSpelled then t.text else ""⟩

/-- The symbol of a name. -/
def Symbol.name (text : String) : Symbol := ⟨.identifier, text⟩

/-! ## Expressions -/

inductive UnaryOperator where
  | not
  | negate
  deriving DecidableEq, Repr

inductive BinaryOperator where
  | equal
  | notEqual
  | greater
  | greaterEqual
  | less
  | lessEqual
  | add
  | subtract
  | multiply
  | divide
  deriving DecidableEq, Repr

namespace UnaryOperator

def kind : UnaryOperator → TokenKind
  | not => .bang
  | negate => .minus

end UnaryOperator

namespace BinaryOperator

def kind : BinaryOperator → TokenKind
  | equal => .equalEqual
  | notEqual => .bangEqual
  | greater => .greater
  | greaterEqual => .greaterEqual
  | less => .less
  | lessEqual => .lessEqual
  | add => .plus
  | subtract => .minus
  | multiply => .star
  | divide => .slash

def precedence : BinaryOperator → Precedence
  | equal | notEqual => .equality
  | greater | greaterEqual | less | lessEqual => .comparison
  | add | subtract => .term
  | multiply | divide => .factor

end BinaryOperator

/-- A parse tree of an expression. A call of a property is an invocation. -/
inductive Expression where
  | nil
  | bool (value : Bool)
  | number (literal : String)
  | string (literal : String)
  | read (name : String)
  | this
  | grouping (e : Expression)
  | superProperty (name : String)
  | superInvoke (name : String) (arguments : List Expression)
  | call (callee : Expression) (arguments : List Expression)
  | property (target : Expression) (name : String)
  | invoke (target : Expression) (name : String) (arguments : List Expression)
  | unary (operator : UnaryOperator) (e : Expression)
  | binary (operator : BinaryOperator) (left right : Expression)
  | and (left right : Expression)
  | or (left right : Expression)
  | assign (name : String) (value : Expression)
  | setProperty (target : Expression) (name : String) (value : Expression)

namespace Expression

mutual

/-- The symbols that an expression is read from. -/
def symbols : Expression → List Symbol
  | nil => [TokenKind.kwNil.symbol]
  | bool value => [if value then TokenKind.kwTrue.symbol else TokenKind.kwFalse.symbol]
  | number literal => [⟨.number, literal⟩]
  | string literal => [⟨.string, literal⟩]
  | read name => [.name name]
  | this => [TokenKind.kwThis.symbol]
  | grouping e => TokenKind.leftParen.symbol :: (e.symbols ++ [TokenKind.rightParen.symbol])
  | superProperty name => [TokenKind.kwSuper.symbol, TokenKind.dot.symbol, .name name]
  | superInvoke name arguments =>
    TokenKind.kwSuper.symbol :: TokenKind.dot.symbol :: .name name ::
      TokenKind.leftParen.symbol :: (listSymbols arguments ++ [TokenKind.rightParen.symbol])
  | call callee arguments =>
    callee.symbols ++ TokenKind.leftParen.symbol ::
      (listSymbols arguments ++ [TokenKind.rightParen.symbol])
  | property target name => target.symbols ++ [TokenKind.dot.symbol, .name name]
  | invoke target name arguments =>
    target.symbols ++ TokenKind.dot.symbol :: .name name :: TokenKind.leftParen.symbol ::
      (listSymbols arguments ++ [TokenKind.rightParen.symbol])
  | unary operator e => operator.kind.symbol :: e.symbols
  | binary operator left right => left.symbols ++ operator.kind.symbol :: right.symbols
  | and left right => left.symbols ++ TokenKind.kwAnd.symbol :: right.symbols
  | or left right => left.symbols ++ TokenKind.kwOr.symbol :: right.symbols
  | assign name value => .name name :: TokenKind.equal.symbol :: value.symbols
  | setProperty target name value =>
    target.symbols ++ TokenKind.dot.symbol :: .name name :: TokenKind.equal.symbol :: value.symbols

/-- Expressions separated by commas. -/
def listSymbols : List Expression → List Symbol
  | [] => []
  | e :: more => e.symbols ++ moreSymbols more

/-- Expressions with a comma before each. -/
def moreSymbols : List Expression → List Symbol
  | [] => []
  | e :: more => TokenKind.comma.symbol :: (e.symbols ++ moreSymbols more)

end

/-- How tightly an expression holds together. -/
def precedence : Expression → Precedence
  | assign .. | setProperty .. => .assignment
  | or .. => .or
  | and .. => .and
  | binary operator _ _ => operator.precedence
  | unary .. => .unary
  | call .. | property .. | invoke .. => .call
  | _ => .primary

/-- Whether an expression with arguments after it is an invocation. -/
def isAccess : Expression → Bool
  | property .. | superProperty .. => true
  | _ => false

mutual

/-- The operands of every operator bind tightly enough. Operators of one precedence group to the left,
`and` and `or` to the right. -/
def Grammatical : Expression → Prop
  | grouping e => e.Grammatical
  | superInvoke _ arguments => ListGrammatical arguments
  | call callee arguments =>
    .call ≤ callee.precedence ∧ callee.isAccess = false ∧ callee.Grammatical ∧
      ListGrammatical arguments
  | property target _ => .call ≤ target.precedence ∧ target.Grammatical
  | invoke target _ arguments =>
    .call ≤ target.precedence ∧ target.Grammatical ∧ ListGrammatical arguments
  | unary _ e => .unary ≤ e.precedence ∧ e.Grammatical
  | binary operator left right =>
    operator.precedence ≤ left.precedence ∧ left.Grammatical ∧
      operator.precedence.next ≤ right.precedence ∧ right.Grammatical
  | and left right =>
    .equality ≤ left.precedence ∧ left.Grammatical ∧ .and ≤ right.precedence ∧ right.Grammatical
  | or left right =>
    .and ≤ left.precedence ∧ left.Grammatical ∧ .or ≤ right.precedence ∧ right.Grammatical
  | assign _ value => value.Grammatical
  | setProperty target _ value => .call ≤ target.precedence ∧ target.Grammatical ∧ value.Grammatical
  | _ => True

def ListGrammatical : List Expression → Prop
  | [] => True
  | e :: more => e.Grammatical ∧ ListGrammatical more

end

end Expression

/-! ## Statements and declarations -/

/-- What stands before the first semicolon of a `for` loop. -/
inductive Initializer where
  | none
  | var (name : String) (value : Option Expression)
  | expression (e : Expression)

mutual

/-- A parse tree of a statement. -/
inductive Statement where
  | expression (e : Expression)
  | print (e : Expression)
  | block (body : List Declaration)
  | ifThen (condition : Expression) (body : Statement)
  | ifThenElse (condition : Expression) (body otherwise : Statement)
  | whileLoop (condition : Expression) (body : Statement)
  | forLoop (init : Initializer) (condition increment : Option Expression) (body : Statement)
  | ret (value : Option Expression)

/-- A parse tree of a declaration. -/
inductive Declaration where
  | statement (s : Statement)
  | var (name : String) (value : Option Expression)
  | function (f : Routine)
  | cls (name : String) (superclass : Option String) (methods : List Routine)

/-- A parse tree of a function or a method, from its name on. -/
inductive Routine where
  | mk (name : String) (parameters : List String) (body : List Declaration)

end

def Routine.name : Routine → String
  | mk name _ _ => name

/-- The symbols of an expression that may be missing. -/
def Expression.optionSymbols : Option Expression → List Symbol
  | none => []
  | some e => e.symbols

def Expression.OptionGrammatical : Option Expression → Prop
  | none => True
  | some e => e.Grammatical

/-- The symbols of a variable declaration. -/
def variableSymbols (name : String) : Option Expression → List Symbol
  | none => [TokenKind.kwVar.symbol, .name name, TokenKind.semicolon.symbol]
  | some e =>
    TokenKind.kwVar.symbol :: .name name :: TokenKind.equal.symbol ::
      (e.symbols ++ [TokenKind.semicolon.symbol])

/-- Names separated by commas. -/
def parameterSymbols : List String → List Symbol
  | [] => []
  | p :: more => .name p :: more.flatMap fun q => [TokenKind.comma.symbol, .name q]

namespace Initializer

def symbols : Initializer → List Symbol
  | none => [TokenKind.semicolon.symbol]
  | var name value => variableSymbols name value
  | expression e => e.symbols ++ [TokenKind.semicolon.symbol]

def Grammatical : Initializer → Prop
  | none => True
  | var _ value => Expression.OptionGrammatical value
  | expression e => e.Grammatical

end Initializer

/-- Whether a statement ends with an `if` that an `else` could follow. -/
def Statement.isOpen : Statement → Bool
  | ifThen .. => true
  | ifThenElse _ _ otherwise => otherwise.isOpen
  | whileLoop _ body => body.isOpen
  | forLoop _ _ _ body => body.isOpen
  | _ => false

mutual

/-- The symbols that a statement is read from. -/
def Statement.symbols : Statement → List Symbol
  | .expression e => e.symbols ++ [TokenKind.semicolon.symbol]
  | .print e => TokenKind.kwPrint.symbol :: (e.symbols ++ [TokenKind.semicolon.symbol])
  | .block body =>
    TokenKind.leftBrace.symbol :: (Declaration.listSymbols body ++ [TokenKind.rightBrace.symbol])
  | .ifThen condition body =>
    TokenKind.kwIf.symbol :: TokenKind.leftParen.symbol ::
      (condition.symbols ++ TokenKind.rightParen.symbol :: body.symbols)
  | .ifThenElse condition body otherwise =>
    TokenKind.kwIf.symbol :: TokenKind.leftParen.symbol ::
      (condition.symbols ++ TokenKind.rightParen.symbol ::
        (body.symbols ++ TokenKind.kwElse.symbol :: otherwise.symbols))
  | .whileLoop condition body =>
    TokenKind.kwWhile.symbol :: TokenKind.leftParen.symbol ::
      (condition.symbols ++ TokenKind.rightParen.symbol :: body.symbols)
  | .forLoop init condition increment body =>
    TokenKind.kwFor.symbol :: TokenKind.leftParen.symbol ::
      (init.symbols ++ (Expression.optionSymbols condition ++ TokenKind.semicolon.symbol ::
        (Expression.optionSymbols increment ++ TokenKind.rightParen.symbol :: body.symbols)))
  | .ret value =>
    TokenKind.kwReturn.symbol ::
      (Expression.optionSymbols value ++ [TokenKind.semicolon.symbol])

/-- The symbols that a declaration is read from. -/
def Declaration.symbols : Declaration → List Symbol
  | .statement s => s.symbols
  | .var name value => variableSymbols name value
  | .function f => TokenKind.kwFun.symbol :: f.symbols
  | .cls name superclass methods =>
    TokenKind.kwClass.symbol :: .name name ::
      (superclass.elim [] (fun s => [TokenKind.less.symbol, .name s]) ++
        TokenKind.leftBrace.symbol :: (Routine.listSymbols methods ++ [TokenKind.rightBrace.symbol]))

/-- The symbols that a function or a method is read from. -/
def Routine.symbols : Routine → List Symbol
  | .mk name parameters body =>
    .name name :: TokenKind.leftParen.symbol ::
      (parameterSymbols parameters ++ TokenKind.rightParen.symbol :: TokenKind.leftBrace.symbol ::
        (Declaration.listSymbols body ++ [TokenKind.rightBrace.symbol]))

def Declaration.listSymbols : List Declaration → List Symbol
  | [] => []
  | d :: more => d.symbols ++ Declaration.listSymbols more

def Routine.listSymbols : List Routine → List Symbol
  | [] => []
  | f :: more => f.symbols ++ Routine.listSymbols more

end

mutual

/-- The expressions are grammatical, and an `else` belongs to the nearest `if`. -/
def Statement.Grammatical : Statement → Prop
  | .expression e => e.Grammatical
  | .print e => e.Grammatical
  | .block body => Declaration.ListGrammatical body
  | .ifThen condition body => condition.Grammatical ∧ body.Grammatical
  | .ifThenElse condition body otherwise =>
    condition.Grammatical ∧ body.Grammatical ∧ body.isOpen = false ∧ otherwise.Grammatical
  | .whileLoop condition body => condition.Grammatical ∧ body.Grammatical
  | .forLoop init condition increment body =>
    init.Grammatical ∧ Expression.OptionGrammatical condition ∧
      Expression.OptionGrammatical increment ∧ body.Grammatical
  | .ret value => Expression.OptionGrammatical value

def Declaration.Grammatical : Declaration → Prop
  | .statement s => s.Grammatical
  | .var _ value => Expression.OptionGrammatical value
  | .function f => f.Grammatical
  | .cls _ _ methods => Routine.ListGrammatical methods

def Routine.Grammatical : Routine → Prop
  | .mk _ _ body => Declaration.ListGrammatical body

def Declaration.ListGrammatical : List Declaration → Prop
  | [] => True
  | d :: more => d.Grammatical ∧ Declaration.ListGrammatical more

def Routine.ListGrammatical : List Routine → Prop
  | [] => True
  | f :: more => f.Grammatical ∧ Routine.ListGrammatical more

end

end LoxMachine
