import SqlCanon.Rules

/-!
# Rules on the command line

Options turn single rules on, over the rules of the settings. No option turns a rule off.
-/

namespace SqlCanon

structure Overrides where
  keywordCase : Option KeywordCase := none
  removeLiterals : Bool := false
  addBackticks : Bool := false
  stripBackticks : Bool := false
  spaceBeforeParen : Bool := false
deriving DecidableEq, Repr

def Overrides.apply (o : Overrides) (r : Rules) : Rules where
  keywordCase := o.keywordCase.getD r.keywordCase
  removeLiterals := r.removeLiterals || o.removeLiterals
  addBackticks := r.addBackticks || o.addBackticks
  stripBackticks := r.stripBackticks || o.stripBackticks
  spaceBeforeParen := r.spaceBeforeParen || o.spaceBeforeParen

end SqlCanon
