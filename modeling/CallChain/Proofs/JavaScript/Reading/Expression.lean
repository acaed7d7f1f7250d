import CallChain.JavaScript.Grammar.Expression
import CallChain.Proofs.JavaScript.Reading.Token

/-!
# What the reading of expressions keeps

Patterns, functions, markup and expressions, given that the phrases inside them keep it.
-/
set_option mvcgen.warning false

namespace CallChain.JavaScript.Grammar

open Std.Do

variable {I : ReadInvariant}

@[spec] theorem privateName_reads : ReadsTree I privateName := by
  mvcgen [privateName] <;> simp_all

@[spec] theorem nextIsAsyncFunction_looks : Looks I nextIsAsyncFunction := by
  mvcgen [nextIsAsyncFunction] <;> simp_all

@[spec] theorem functionHead_reads : Reads I (fun head => I.trees head.1) functionHead := by
  mvcgen [functionHead] <;> simp_all

@[spec] theorem modifier?_reads (word : String) (mayFollow : List Char → Bool) :
    ReadsTrees I (modifier? word mayFollow) := by
  mvcgen [modifier?] <;> simp_all

@[spec] theorem methodModifiers_reads : ReadsTrees I methodModifiers := by
  mvcgen [methodModifiers] <;> simp_all

@[spec] theorem markupWord_reads {kind : String} (hkind : ¬ IsMark kind) :
    ReadsTree I (markupWord kind) := by
  mvcgen [markupWord] <;> simp_all

@[spec] theorem dottedName_reads {left : Concrete} (hleft : I.tree left) (n : Nat) :
    ReadsTree I (dottedName left n) := by
  induction n generalizing left with
  | zero => exact fail_reads _
  | succ n ih => mvcgen [dottedName, ih] <;> simp_all

@[spec] theorem namespaced_reads {first : Concrete} (hfirst : I.tree first) {kind : String}
    (hkind : isPlain kind = true) : ReadsTree I (namespaced first kind) := by
  mvcgen [namespaced] <;> simp_all

@[spec] theorem importValue_reads : ReadsTree I importValue := by
  mvcgen [importValue] <;> simp_all +zetaDelta

@[spec] theorem nextIsEquals_looks : Looks I nextIsEquals := by mvcgen [nextIsEquals]

@[spec] theorem literalOrPattern_reads {literal pattern : Parser Concrete}
    (hliteral : ReadsTree I literal) (hpattern : ReadsTree I pattern) :
    ReadsTree I (literalOrPattern literal pattern) := by
  mvcgen [literalOrPattern, hliteral, hpattern] <;> simp_all

section Phrases

variable {s : Scope} (hs : Upholds I s)
include hs

@[spec] theorem propertyName_reads : ReadsTree I (propertyName s) := by
  mvcgen [propertyName] <;> simp_all

@[spec] theorem withDefault_reads {target : Concrete} (htarget : I.tree target) {kind : String}
    (hkind : isPlain kind = true) : ReadsTree I (withDefault s kind target) := by
  mvcgen [withDefault] <;> simp_all

@[spec] theorem restPattern_reads : ReadsTree I (restPattern s) := by
  mvcgen [restPattern] <;> simp_all

@[spec] theorem parameter_reads : ReadsTree I (parameter s) := by
  mvcgen [parameter] <;> simp_all

@[spec] theorem arrayPattern_reads : ReadsTree I (arrayPattern s) := by
  mvcgen [arrayPattern] <;> simp_all

@[spec] theorem propertyPattern_reads : ReadsTree I (propertyPattern s) := by
  mvcgen [propertyPattern] <;> simp_all

@[spec] theorem objectPattern_reads : ReadsTree I (objectPattern s) := by
  mvcgen [objectPattern] <;> simp_all

@[spec] theorem binding_reads : ReadsTree I (binding s) := by
  mvcgen [binding] <;> simp_all

@[spec] theorem formalParameters_reads : ReadsTree I (formalParameters s) := by
  mvcgen [formalParameters] <;> simp_all

@[spec] theorem functionExpression_reads : ReadsTree I (functionExpression s) := by
  mvcgen [functionExpression] <;> simp_all
  split <;> simp_all

@[spec] theorem functionDeclaration_reads : ReadsTree I (functionDeclaration s) := by
  mvcgen [functionDeclaration] <;> simp_all
  split <;> simp_all

@[spec] theorem arrowTail_reads {head : List Concrete} (hhead : I.trees head) :
    ReadsTree I (arrowTail s head) := by
  mvcgen [arrowTail] <;> simp_all

@[spec] theorem methodTail_reads {head : List Concrete} (hhead : I.trees head) :
    ReadsTree I (methodTail s head) := by
  mvcgen [methodTail] <;> simp_all

@[spec] theorem initializer_reads : ReadsTrees I (initializer s) := by
  mvcgen [initializer] <;> simp_all

@[spec] theorem classMember_reads : ReadsTrees I (classMember s) := by
  mvcgen [classMember] <;> simp_all +zetaDelta

@[spec] theorem classBody_reads : ReadsTree I (classBody s) := by
  mvcgen [classBody] <;> simp_all

@[spec] theorem classHeritage_reads : ReadsTrees I (classHeritage s) := by
  mvcgen [classHeritage] <;> simp_all

@[spec] theorem classExpression_reads : ReadsTree I (classExpression s) := by
  mvcgen [classExpression] <;> simp_all

@[spec] theorem classDeclaration_reads : ReadsTree I (classDeclaration s) := by
  mvcgen [classDeclaration] <;> simp_all

omit hs in
@[spec] theorem elementName_reads : ReadsTree I (elementName s) := by
  mvcgen [elementName] <;> simp_all

@[spec] theorem markupExpression_reads : ReadsTree I (markupExpression s) := by
  mvcgen [markupExpression] <;> simp_all

omit hs in
@[spec] theorem markupString_reads (quote : Char) : ReadsTree I (markupString s quote) := by
  mvcgen [markupString] <;> simp_all

@[spec] theorem attributeValue_reads : ReadsTree I (attributeValue s) := by
  mvcgen [attributeValue] <;> simp_all

@[spec] theorem markupAttribute_reads : ReadsTree I (markupAttribute s) := by
  mvcgen [markupAttribute] <;> simp_all

@[spec] theorem markupChild_reads : ReadsItem I (markupChild s) := by
  mvcgen [markupChild] <;> simp_all +zetaDelta

@[spec] theorem elementTail_reads {opening : Concrete} (hopening : I.tree opening) :
    ReadsTree I (elementTail s opening) := by
  mvcgen [elementTail] <;> simp_all +zetaDelta

@[spec] theorem markupElement_reads : ReadsTree I (markupElement s) := by
  mvcgen [markupElement] <;> simp_all

@[spec] theorem spreadElement_reads : ReadsTree I (spreadElement s) := by
  mvcgen [spreadElement] <;> simp_all

@[spec] theorem item_reads : ReadsTree I (item s) := by
  mvcgen [item] <;> simp_all

@[spec] theorem arguments_reads : ReadsKind I "arguments" (arguments s) := by
  refine ReadsTree.readsKind ?_ <|
    yields_bind fun _ => yields_bind fun _ => yields_bind fun _ => yields_pure rfl
  mvcgen [arguments] <;> simp_all

@[spec] theorem arrayLiteral_reads : ReadsTree I (arrayLiteral s) := by
  mvcgen [arrayLiteral] <;> simp_all

@[spec] theorem property_reads : ReadsTree I (property s) := by
  mvcgen [property] <;> simp_all

@[spec] theorem objectLiteral_reads : ReadsTree I (objectLiteral s) := by
  mvcgen [objectLiteral] <;> simp_all

@[spec] theorem parenthesized_reads : ReadsTree I (parenthesized s) := by
  mvcgen [parenthesized] <;> simp_all

@[spec] theorem parenthesizedOrArrow_reads : ReadsTree I (parenthesizedOrArrow s) := by
  mvcgen [parenthesizedOrArrow] <;> simp_all

@[spec] theorem asyncArrowHead?_reads : ReadsItem I (asyncArrowHead? s) := by
  mvcgen [asyncArrowHead?] <;> simp_all

@[spec] theorem asyncOrName_reads : ReadsTree I (asyncOrName s) := by
  mvcgen [asyncOrName] <;> simp_all

@[spec] theorem nameOrArrow_reads : ReadsTree I (nameOrArrow s) := by
  mvcgen [nameOrArrow] <;> simp_all

omit hs in
@[spec] theorem member_reads {left mark : Concrete} (hleft : I.tree left) (hmark : I.part mark) :
    ReadsTree I (appended.member left mark) := by
  mvcgen [appended.member] <;> simp_all [ReadInvariant.tree_access]

@[spec] theorem subscript_reads {left : Concrete} {mark : List Concrete} (hleft : I.tree left)
    (hmark : I.parts mark) : ReadsTree I (appended.subscript s left mark) := by
  mvcgen [appended.subscript] <;> simp_all [ReadInvariant.tree_access]

@[spec] theorem appended_reads (ofNew : Bool) {left : Concrete} (hleft : I.tree left) (n : Nat) :
    ReadsTree I (appended s ofNew left n) := by
  induction n generalizing left with
  | zero => exact fail_reads _
  | succ n ih =>
    have htemplate := templateLiteral_readsKind hs
    mvcgen [appended, ih, htemplate] <;> simp_all +zetaDelta

@[spec] theorem primary_reads {nested : Parser Concrete} (hnested : ReadsTree I nested) :
    ReadsTree I (primary s nested) := by
  have htemplate := templateLiteral_reads hs
  mvcgen [primary, hnested, htemplate] <;> simp_all [constantWords]
  grind

@[spec] theorem newExpression_reads (n : Nat) : ReadsTree I (newExpression s n) := by
  induction n with
  | zero => exact fail_reads _
  | succ n ih => mvcgen [newExpression, ih] <;> simp_all

@[spec] theorem operand_reads : ReadsTree I (operand s) := by
  mvcgen [operand] <;> simp_all

@[spec] theorem assigned_reads {left : Concrete} (hleft : I.tree left) :
    ReadsTree I (assigned s left) := by
  mvcgen [assigned] <;> simp_all

@[spec] theorem yieldExpression_reads : ReadsTree I (yieldExpression s) := by
  mvcgen [yieldExpression] <;> simp_all

@[spec] theorem marked_reads (mark : String) : ReadsTree I (unary.marked s mark) := by
  mvcgen [unary.marked] <;> simp_all

@[spec] theorem unary_reads : ReadsTree I (unary s) := by
  mvcgen [unary] <;> simp_all

@[spec] theorem operators_reads (level : Nat) {left : Concrete} (hleft : I.tree left) (n : Nat) :
    ReadsTree I (operators s level left n) := by
  induction n generalizing left with
  | zero => exact fail_reads _
  | succ n ih => mvcgen [operators, ih] <;> simp_all

@[spec] theorem expressionAt_reads (level : Nat) : ReadsTree I (expressionAt s level) := by
  mvcgen [expressionAt] <;> simp_all

@[spec] theorem expressions_reads : ReadsTree I (expressions s) := by
  mvcgen [expressions] <;> simp_all

@[spec] theorem pattern_reads : ReadsTree I (pattern s) := by
  mvcgen [pattern] <;> simp_all

end Phrases

end CallChain.JavaScript.Grammar
