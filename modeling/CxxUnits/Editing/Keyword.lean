/-!
The words of C++ that are shown as keywords and offered for completion.
-/
namespace CxxUnits.Editing

def keywords : List String :=
  ["auto", "bool", "break", "case", "catch", "char", "class", "const", "constexpr", "continue",
   "decltype", "default", "delete", "do", "double", "else", "enum", "explicit", "extern",
   "false", "float", "for", "friend", "if", "inline", "int", "long", "namespace", "new",
   "noexcept", "nullptr", "operator", "private", "protected", "public", "return", "short",
   "signed", "sizeof", "static", "static_assert", "struct", "switch", "template", "this",
   "throw", "true", "try", "typedef", "typename", "union", "unsigned", "using", "virtual",
   "void", "volatile", "while"]

end CxxUnits.Editing
