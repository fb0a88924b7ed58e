/-!
The tokens of a YAML document.

Lists and maps have their marks if they are bracketed. Those that are laid out over lines are
opened and closed by tokens of their own, which the layout puts where their lines start and end.
-/

namespace RowAwk.Yaml

inductive Token where
  | openList | closeList | openMap | closeMap | comma
  | openListBlock | openMapBlock | closeBlock | entry
  | key | value
  | anchor (name : String)
  | alias (name : String)
  | tag (name : String)
  | scalar (plain : Bool) (text : String)
  | documentEnd
deriving DecidableEq, Repr

end RowAwk.Yaml
