import Bibstyle.Text.Line
/-!
# Helper — methods the script brings along

Some primitives of a style have no counterpart in the runtime, so the script carries a method for each one it uses.  A
method may need classes to be imported.
-/
namespace Bibstyle

/-- **A method the script may carry.** -/
inductive Helper where
  | addPeriod
  | callType
  | chrToInt
  | formatName
  | intToChr
  | isEmpty
  | isMissing
  | numNames
  | substring
  | textLength
  | textPrefix
  deriving DecidableEq

namespace Helper

/-- **All of them**, by name. -/
def all : List Helper :=
  [addPeriod, callType, chrToInt, formatName, intToChr, isEmpty, isMissing, numNames, substring, textLength, textPrefix]

def name : Helper → String
  | addPeriod => "addPeriod"
  | callType => "callType"
  | chrToInt => "chrToInt"
  | formatName => "formatName"
  | intToChr => "intToChr"
  | isEmpty => "isEmpty"
  | isMissing => "isMissing"
  | numNames => "numNames"
  | substring => "substring"
  | textLength => "textLength"
  | textPrefix => "textPrefix"

/-- The helper of a name. -/
def named? (n : String) : Option Helper :=
  all.find? (fun h => h.name == n)

/-- **The classes a helper needs.** -/
def imports : Helper → List String
  | formatName => ["bibtex.names.NameFormatter", "bibtex.names.NameList"]
  | numNames => ["bibtex.names.NameList"]
  | _ => []

/-- **The text of a helper.** -/
def lines : Helper → List Line
  | addPeriod =>
    [⟨0, "String addPeriod(String s) \x7b"⟩,
     ⟨1, "def trimmed = s.replaceAll('[\x7d]+$', '')"⟩,
     ⟨1, "if (trimmed.isEmpty() || trimmed[-1] in ['.', '?', '!']) \x7b"⟩,
     ⟨2, "return s"⟩,
     ⟨1, "\x7d"⟩,
     ⟨1, "return s + '.'"⟩,
     ⟨0, "\x7d"⟩]
  | isEmpty =>
    [⟨0, "int isEmpty(String s) \x7b"⟩,
     ⟨1, "return s == null || s.trim().isEmpty() ? 1 : 0"⟩,
     ⟨0, "\x7d"⟩]
  | isMissing =>
    [⟨0, "int isMissing(def value) \x7b"⟩,
     ⟨1, "return value == null ? 1 : 0"⟩,
     ⟨0, "\x7d"⟩]
  | substring =>
    [⟨0, "String substring(String s, int start, int len) \x7b"⟩,
     ⟨1, "int n = s.length()"⟩,
     ⟨1, "if (len <= 0 || start == 0 || start > n || -start > n) \x7b"⟩,
     ⟨2, "return ''"⟩,
     ⟨1, "\x7d"⟩,
     ⟨1, "if (start > 0) \x7b"⟩,
     ⟨2, "return s.substring(start - 1, Math.min(n, start - 1 + len))"⟩,
     ⟨1, "\x7d"⟩,
     ⟨1, "int end = n + start + 1"⟩,
     ⟨1, "return s.substring(Math.max(0, end - len), end)"⟩,
     ⟨0, "\x7d"⟩]
  | textLength =>
    [⟨0, "int textLength(String s) \x7b"⟩,
     ⟨1, "return s.replaceAll(/\\\\[a-zA-Z]+ ?|[\x7b\x7d\\\\]/, '').length()"⟩,
     ⟨0, "\x7d"⟩]
  | textPrefix =>
    [⟨0, "String textPrefix(String s, int count) \x7b"⟩,
     ⟨1, "def prefix = new StringBuilder()"⟩,
     ⟨1, "int depth = 0"⟩,
     ⟨1, "int taken = 0"⟩,
     ⟨1, "for (char c : s.toCharArray()) \x7b"⟩,
     ⟨2, "if (taken >= count && depth == 0) \x7b"⟩,
     ⟨3, "break"⟩,
     ⟨2, "\x7d"⟩,
     ⟨2, "if (c == '\x7b') \x7b"⟩,
     ⟨3, "depth++"⟩,
     ⟨2, "\x7d else if (c == '\x7d') \x7b"⟩,
     ⟨3, "depth--"⟩,
     ⟨2, "\x7d else if (taken < count) \x7b"⟩,
     ⟨3, "taken++"⟩,
     ⟨2, "\x7d else \x7b"⟩,
     ⟨3, "continue"⟩,
     ⟨2, "\x7d"⟩,
     ⟨2, "prefix.append(c)"⟩,
     ⟨1, "\x7d"⟩,
     ⟨1, "while (depth-- > 0) \x7b"⟩,
     ⟨2, "prefix.append('\x7d')"⟩,
     ⟨1, "\x7d"⟩,
     ⟨1, "return prefix.toString()"⟩,
     ⟨0, "\x7d"⟩]
  | chrToInt =>
    [⟨0, "int chrToInt(String s) \x7b"⟩,
     ⟨1, "if (s.length() != 1) \x7b"⟩,
     ⟨2, "bibProcessor.warning(\"chr.to.int\\$ needs a single character, got '$\x7bs\x7d'\")"⟩,
     ⟨2, "return 0"⟩,
     ⟨1, "\x7d"⟩,
     ⟨1, "return (int) s.charAt(0)"⟩,
     ⟨0, "\x7d"⟩]
  | intToChr =>
    [⟨0, "String intToChr(int i) \x7b"⟩,
     ⟨1, "return String.valueOf((char) i)"⟩,
     ⟨0, "\x7d"⟩]
  | callType =>
    [⟨0, "void callType(def entry) \x7b"⟩,
     ⟨1, "def handler = types[entry.type] ?: types['default.type']"⟩,
     ⟨1, "if (handler != null) \x7b"⟩,
     ⟨2, "handler(entry)"⟩,
     ⟨1, "\x7d"⟩,
     ⟨0, "\x7d"⟩]
  | formatName =>
    [⟨0, "String formatName(String names, int index, String format) \x7b"⟩,
     ⟨1, "def list = new NameList(names)"⟩,
     ⟨1, "if (index < 1 || index > list.size()) \x7b"⟩,
     ⟨2, "bibProcessor.warning(\"There is no name $\x7bindex\x7d in '$\x7bnames\x7d'\")"⟩,
     ⟨2, "return ''"⟩,
     ⟨1, "\x7d"⟩,
     ⟨1, "return new NameFormatter(format).format(list.get(index - 1))"⟩,
     ⟨0, "\x7d"⟩]
  | numNames =>
    [⟨0, "int numNames(String names) \x7b"⟩,
     ⟨1, "return new NameList(names).size()"⟩,
     ⟨0, "\x7d"⟩]

/-- The first line of a helper, which declares it. -/
def heading (h : Helper) : String :=
  match h.lines with
  | [] => ""
  | l :: _ => l.text

end Helper
end Bibstyle
