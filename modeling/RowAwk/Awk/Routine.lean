/-!
Functions that a program brings along because awk lacks them.

A program that calls one of them has its source in front, together with the sources it depends on.
The tables of the functions that read files are filled once and shared by all calls.
-/

namespace RowAwk.Awk

/-- The functions, in the order in which a program lists them.

    * `crc32` is the checksum of a text;
    * `keySet` and `keyTable` read a file once and number the table that holds it;
    * `isInFile` and `mapFromFile` look a key up in such a table;
    * `uniq` sorts the distinct parts of a text. -/
inductive Routine where
  | crc32 | keySet | keyTable | isInFile | mapFromFile | uniq
deriving DecidableEq, Repr

namespace Routine

/-- The name under which a program calls the function. -/
def name : Routine → String
  | .crc32 => "crc32"
  | .keySet => "hash_id_set"
  | .keyTable => "hash_id_map"
  | .isInFile => "is_in_file"
  | .mapFromFile => "map_from_file"
  | .uniq => "uniq"

def all : List Routine := [.crc32, .keySet, .keyTable, .isInFile, .mapFromFile, .uniq]

/-- The function with a given name. -/
def ofName? (name : String) : Option Routine := all.find? (·.name == name)

/-- The functions that one calls. -/
def dependencies : Routine → List Routine
  | .isInFile => [.keySet]
  | .mapFromFile => [.keyTable]
  | _ => []

/-- The functions needed so far and one more with its dependencies, each once and in order. -/
def require (r : Routine) (needed : List Routine) : List Routine :=
  all.filter fun s => s ∈ needed ∨ s = r ∨ s ∈ r.dependencies

/-- The lines of awk that define the function. -/
def lines : Routine → List String
  | .crc32 => [
    "function crc32(str)",
    "\x7b",
    "    # requires LC_ALL=C",
    "    if (__crc32_init!=1)\x7b",
    "        for (__crc32_i=0;__crc32_i<256;__crc32_i++)\x7b",
    "            __crc32_ord[sprintf(\"%c\", __crc32_i)] = __crc32_i;",
    "            __crc32 = lshift(__crc32_i,24);",
    "            for (__crc32_j=0;__crc32_j<8;__crc32_j++)\x7b",
    "                if (and(__crc32,0x80000000)) __crc32 = and(xor(2*__crc32,0x04C11DB7),0xffffffff)",
    "                else                     __crc32 = and(2*__crc32,0xffffffff)",
    "            \x7d",
    "            __crc32_table[__crc32_i] = __crc32;",
    "        \x7d",
    "        __crc32_init = 1;",
    "    \x7d",
    "",
    "    __crc32_buf_len = split(str,__crc32_buf,\"\");",
    "    __crc32 = 0;",
    "    for (__crc32_i = 1; __crc32_i<=__crc32_buf_len; __crc32_i++)",
    "      __crc32 = and(xor(and(lshift(__crc32,8),0xffffffff),\\",
    "        __crc32_table[and(and(xor(rshift(__crc32,24),__crc32_ord[__crc32_buf[__crc32_i]]),0xff),0xffffffff)]),0xffffffff);",
    "",
    "    while(__crc32_buf_len)\x7b",
    "        __crc32=and(xor(and(lshift(__crc32,8),0xffffffff),\\",
    "        __crc32_table[and(and(xor(rshift(__crc32,24),and(__crc32_buf_len,0xff)),0xff),0xffffffff)]),0xffffffff);",
    "        __crc32_buf_len=rshift(__crc32_buf_len,8);",
    "    \x7d",
    "",
    "    return and(compl(__crc32),0xffffffff)",
    "\x7d"]
  | .keySet => [
    "function hash_id_set(fname)\x7b",
    "# fname: headerless tsv, one key per line",
    "# loads fname into __hash_id_set_tables on first use and returns its table id",
    "",
    "    if (fname in __hash_id_set)",
    "        return __hash_id_set[fname];",
    "",
    "    if(system( \"[ -e \" fname \" ] \")!=0)\x7b",
    "        print \"Error:\", fname, \"not found\" > \"/dev/stderr\";",
    "        exit 1;",
    "    \x7d",
    "",
    "    __hash_id_set_next_id = (length(__hash_id_set) + 1) \"\";",
    "    while ((getline __hash_id_set_line < fname) > 0)",
    "        __hash_id_set_tables[(__hash_id_set_next_id \"\\t\" __hash_id_set_line)] = 0;",
    "    close(fname);",
    "",
    "    __hash_id_set[fname] = __hash_id_set_next_id;",
    "    return __hash_id_set_next_id;",
    "\x7d"]
  | .keyTable => [
    "function hash_id_map(fname)\x7b",
    "# fname: headerless tsv with the key in $1 and the value in $2",
    "# loads fname into __hash_id_map_tables on first use and returns its table id",
    "",
    "    if (fname in __hash_id_map)",
    "        return __hash_id_map[fname];",
    "",
    "    if(system( \"[ -e \" fname \" ] \")!=0)\x7b",
    "        print \"Error:\", fname, \"not found\" > \"/dev/stderr\";",
    "        exit 1;",
    "    \x7d",
    "",
    "    __hash_id_map_next_id = (length(__hash_id_map) + 1) \"\";",
    "    while ((getline __hash_id_map_line < fname) > 0)\x7b",
    "        split(__hash_id_map_line, __hash_id_map_sline, \"\\t\")",
    "        __hash_id_map_tables[(__hash_id_map_next_id \"\\t\" __hash_id_map_sline[1])] = __hash_id_map_sline[2]",
    "    \x7d",
    "    close(fname);",
    "",
    "    __hash_id_map[fname] = __hash_id_map_next_id;",
    "    return __hash_id_map_next_id;",
    "\x7d"]
  | .isInFile => [
    "function is_in_file(fname, key)\x7b",
    "    return ( (hash_id_set(fname) \"\\t\" key) in __hash_id_set_tables );",
    "\x7d"]
  | .mapFromFile => [
    "function map_from_file(fname, key, def)\x7b",
    "    __map_from_file_key = hash_id_map(fname) \"\\t\" key;",
    "    if (__map_from_file_key in __hash_id_map_tables)",
    "        return __hash_id_map_tables[__map_from_file_key];",
    "    return def;",
    "\x7d"]
  | .uniq => [
    "function uniq(delim, expr)\x7b",
    "    delete __uniq_items;",
    "    delete __uniq_heap;",
    "    split(expr, __uniq_items, delim);",
    "    for (__uniq_item in __uniq_items) __uniq_heap[__uniq_items[__uniq_item]] = 0;",
    "    __uniq_nitems = asorti(__uniq_heap);",
    "    __uniq_result = \"\";",
    "    for (__uniq_i=1; __uniq_i<=__uniq_nitems; __uniq_i++)",
    "            __uniq_result = (__uniq_result==\"\")?(__uniq_heap[__uniq_i]):(__uniq_result delim __uniq_heap[__uniq_i]);",
    "    return __uniq_result;",
    "\x7d"]

/-- The source that defines the function. -/
def source (r : Routine) : String := "\n".intercalate r.lines

end Routine

end RowAwk.Awk
